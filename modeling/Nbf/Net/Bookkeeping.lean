import Nbf.Net.Cover
import Nbf.Net.Lifetime
import Nbf.Net.Wakeup

/-! The cids that a node has in use: its builds that wait, its handles, its Origin entries.

As long as the counter has not wrapped no two builds share a cid, whatever comes in under it. So a
wait is found by its own CREATED only, and a circuit that has been closed stays closed.
-/

set_option autoImplicit false

namespace Nbf.Net

open Nbf.Library Nbf.Crypto

variable {C : Crates}

/-! ## The counter -/

theorem Node.handleCell_nextCid (node : Node C) (lookup : Lookup) (src : SocketAddr) (cell : Cell) :
    (node.handleCell lookup src cell).1.nextCid = node.nextCid ∨
      (node.handleCell lookup src cell).1.nextCid = node.nextCid + 1 := by
  unfold handleCell
  cases cell.cmd with
  | create =>
    unfold handleCreate
    generalize node.gather cell = gathered
    obtain ⟨full, frags⟩ := gathered
    dsimp only
    split
    next => exact .inl rfl
    next header =>
      split
      next outcome _ =>
        cases outcome with
        | terminal => exact .inl rfl
        | relay => exact .inr rfl
      next => exact .inl rfl
  | created =>
    refine .inl ?_
    dsimp only
    unfold handleCreated
    split
    · rfl
    · split <;> rfl
  | destroy =>
    refine .inl ?_
    dsimp only
    unfold handleDestroy
    dsimp only
    split <;> rfl
  | relay =>
    refine .inl ?_
    dsimp only
    unfold handleRelay
    split
    · split <;> rfl
    · rfl
  | padding => exact .inl rfl

/-- The cid that a call has taken. -/
def BuildStage.cid? : BuildStage → Option UInt32
  | .sending task _ | .waiting task _ | .expired task | .resolved task => some task.cid
  | .returned (.ok handle) => some handle.cid
  | .prepared .. | .returned (.error _) | .panicked => none

namespace Builds

variable {s t : Builds C} {event : BuildEvent}

def cidAt (s : Builds C) (i : Nat) : Option UInt32 := (s.stages.get i).bind BuildStage.cid?

theorem cidAt_of {i : Nat} {stage : BuildStage} (here : s.stages.get i = some stage) : s.cidAt i = stage.cid? := by
  rw [cidAt, here, Option.bind_some]

theorem cidAt_insert {i j : Nat} {stage : BuildStage} (moved : t.stages = s.stages.insert i stage) :
    t.cidAt j = if j = i then stage.cid? else s.cidAt j := by
  rw [cidAt, moved, Table.get_insert]
  split <;> rfl

theorem Step.cidAt (step : Step s event t) {j : Nat} {cid : UInt32} (here : t.cidAt j = some cid) :
    s.cidAt j = some cid ∨ event = .alloc j ∧ cid = s.node.nextCid := by
  have on {i : Nat} {stage stage' : BuildStage} (moved : t.stages = s.stages.insert i stage') (before : s.stages.get i = some stage)
      (same : ∀ cid, stage'.cid? = some cid → stage.cid? = some cid) : s.cidAt j = some cid := by
    rw [cidAt_insert moved] at here
    split at here
    next own => rw [own, cidAt_of before, same cid here]
    next => exact here
  cases step with
  | recv | elsewhere => exact .inl here
  | @call i lookup route free =>
    rw [cidAt_insert (s := s) (i := i) rfl] at here
    split at here
    next =>
      split at here <;> cases here
    next => exact .inl here
  | @alloc i built linkPub before =>
    rw [cidAt_insert (s := s) (i := i) rfl] at here
    split at here
    next own => exact .inr ⟨own ▸ rfl, (Option.some.inj here).symm⟩
    next => exact .inl here
  | fragment before | register before | wake before | expire before | store before => exact .inl (on rfl before fun _ => id)
  | cleanup before => exact .inl (on rfl before fun _ none => by cases none)

theorem Step.alloc_nextCid {i : Nat} (step : Step s (.alloc i) t) : t.node.nextCid = s.node.nextCid + 1 := by
  cases step
  rfl

/-- Every sender in `pending` is that of a call that waits under its cid, or is still to clean up there. -/
def Held (s : Builds C) : Prop := ∀ cid tx, s.node.pending.get cid = some tx →
  ∃ i task, (s.stages.get i = some (.waiting task tx) ∨ s.stages.get i = some (.expired task)) ∧ task.cid = cid

/-- Who waits has been answered, or its sender is in `pending`. -/
def Awaited (s : Builds C) : Prop := ∀ i task tx, s.stages.get i = some (.waiting task tx) →
  s.oneshots.get tx = some .sent ∨ s.node.pending.get task.cid = some tx

theorem Held.step (held : s.Held) (registered : s.Registered) (step : Step s event t) : t.Held := by
  intro cid tx here
  -- A sender that was there before, while a call moves that neither waits for it nor is to clean up behind it.
  have stays {i : Nat} {stage : BuildStage} (moved : t.stages = s.stages.insert i stage)
      (waits : ∀ task, s.stages.get i ≠ some (.waiting task tx))
      (late : ∀ task, s.stages.get i = some (.expired task) → task.cid ≠ cid)
      (there : s.node.pending.get cid = some tx) :
      ∃ j task, (t.stages.get j = some (.waiting task tx) ∨ t.stages.get j = some (.expired task)) ∧ task.cid = cid := by
    rw [moved]
    obtain ⟨j, task, waiting | expired, own⟩ := held cid tx there
    · have apart : j ≠ i := fun same => waits task (same ▸ waiting)
      exact ⟨j, task, .inl ((Table.get_insert_of_ne _ _ apart).trans waiting), own⟩
    · have apart : j ≠ i := fun same => late task (same ▸ expired) own
      exact ⟨j, task, .inr ((Table.get_insert_of_ne _ _ apart).trans expired), own⟩
  cases step with
  | recv lookup src cell =>
    refine held cid tx ?_
    by_cases created : cell.cmd = .created
    · rw [(s.recv_created lookup src created).1] at here
      exact Table.get_remove_some here
    · rwa [(s.recv_other lookup src created).1] at here
  | elsewhere _ same => exact held cid tx (same ▸ here)
  | @call i lookup route free => exact stays rfl (by simp [free]) (by simp [free]) (s.pending_call i lookup route ▸ here)
  | alloc before | fragment before | store before => exact stays rfl (by simp [before]) (by simp [before]) here
  | @register i task before =>
    rcases Table.get_insert_some here with ⟨rfl, rfl⟩ | ⟨-, old⟩
    · exact ⟨i, task, .inl (Table.get_insert_self ..), rfl⟩
    · exact stays rfl (by simp [before]) (by simp [before]) (Table.get_remove_some old)
  | @wake i task rx before sent =>
    refine stays rfl (fun task' same => ?_) (by simp [before]) here
    -- The sender of a call that has been answered is in `pending` no more.
    cases before.symm.trans same
    cases sent.symm.trans (registered.empty cid _ here).2
  | @expire i task rx before unsent =>
    by_cases own : tx = rx
    · subst own
      exact ⟨i, task, .inr (Table.get_insert_self ..), (registered.slot i task tx cid before here).symm⟩
    · exact stays rfl (fun task' same => own (by cases before.symm.trans same; rfl)) (by simp [before]) here
  | @cleanup i task before =>
    refine stays rfl (by simp [before]) (fun task' same own => ?_) (Table.get_remove_some here)
    cases before.symm.trans same
    exact Table.ne_of_get_remove here own.symm

theorem Awaited.step (awaited : s.Awaited) (registered : s.Registered)
    (single : ∀ i j cid, s.cidAt i = some cid → s.cidAt j = some cid → i = j) (step : Step s event t) : t.Awaited := by
  intro i task tx here
  have apart {j : Nat} {stage : BuildStage} {cid : UInt32} (before : s.stages.get j = some stage) (has : stage.cid? = some cid)
      (waits : s.stages.get i = some (.waiting task tx)) (other : i ≠ j) : task.cid ≠ cid := by
    rintro rfl
    exact other (single i j task.cid (cidAt_of waits) ((cidAt_of before).trans has))
  cases step with
  | recv lookup src cell =>
    rcases awaited i task tx here with sent | there
    · left
      by_cases created : cell.cmd = .created
      · rw [(s.recv_created lookup src created).2]
        exact (get_sendOk _ _ _).mpr (.inr sent)
      · rwa [(s.recv_other lookup src created).2]
    · by_cases created : cell.cmd = .created
      · obtain ⟨pending, oneshots⟩ := s.recv_created lookup src created
        by_cases own : task.cid = cell.cid
        · left
          rw [oneshots]
          exact (get_sendOk _ _ _).mpr (.inl (own ▸ there))
        · right
          rw [pending, Table.get_remove, if_neg own]
          exact there
      · right
        rwa [(s.recv_other lookup src created).1]
  | elsewhere _ same =>
    rw [same]
    exact awaited i task tx here
  | @call j lookup route free =>
    rw [s.pending_call]
    refine awaited i task tx (waiting_put (fun task rx same => ?_) here)
    split at same <;> cases same
  | alloc | fragment | wake | expire | store => exact awaited i task tx (waiting_put (by simp) here)
  | @register j task' before =>
    rcases Table.get_insert_some here with ⟨rfl, same⟩ | ⟨other, waits⟩
    · cases same
      exact .inr (Table.get_insert_self ..)
    · rcases awaited i task tx waits with sent | there
      · exact .inl ((sent_register registered j task' waits).mpr sent)
      · have differs := apart before rfl waits other
        exact .inr ((Table.get_insert_of_ne _ _ differs).trans ((Table.get_remove_of_ne _ differs).trans there))
  | @cleanup j task' before =>
    have waits := waiting_put (by simp) here
    rcases awaited i task tx waits with sent | there
    · exact .inl ((sent_closeAt registered task'.cid tx).mpr sent)
    · have other : i ≠ j := by
        rintro rfl
        cases waits.symm.trans before
      exact .inr ((Table.get_remove_of_ne _ (apart before rfl waits other)).trans there)

end Builds

namespace Running

variable {n : Nat} {r r' : Running C} {event : Event}

theorem Step.nextCid (step : Step r event r') : r'.node.nextCid = r.node.nextCid ∨ r'.node.nextCid = r.node.nextCid + 1 := by
  cases step with
  | recv lookup src cell => exact r.node.handleCell_nextCid lookup src cell
  | build own step =>
    rcases step.moved own with ⟨rng, pending, counted, same⟩ | ⟨-, -, rfl⟩
    · rw [same]
      exact counted
    · exact .inl rfl
  | openStream cid stream tx =>
    left
    simp only [Node.registerStream]
    split <;> rfl
  | send stream rcmd msg _ =>
    left
    simp only [Node.send]
    split <;> rfl
  | close _ =>
    left
    simp only [Node.close]
    split <;> rfl

/-- What a node has under its own cids, after at most `n` of them were allocated. -/
structure Books (n : Nat) (r : Running C) : Prop where
  counter : ∃ a ≤ n, r.node.nextCid = UInt32.ofNat (1 + a) ∧ ∀ i cid, r.cidAt i = some cid → cid.toNat ≤ a
  single : ∀ i j cid, r.cidAt i = some cid → r.cidAt j = some cid → i = j
  registered : r.Registered
  held : r.Held
  awaited : r.Awaited

namespace Books

theorem spawn (seed : C.Rng) : Books 0 (Builds.spawn C seed) where
  counter := ⟨0, le_rfl, rfl, fun _ _ none => by cases none⟩
  single _ _ _ none := by cases none
  registered := .spawn seed
  held _ _ none := by cases none
  awaited _ _ _ none := by cases none

theorem step (books : Books n r) (room : n + 2 ≤ 2 ^ 32) (step : Step r event r') : Books (n + 1) r' := by
  obtain ⟨a, few, counter, below⟩ := books.counter
  obtain ⟨event', hears⟩ := step.builds
  have number : r.node.nextCid.toNat = 1 + a := by
    have small : 1 + a < UInt32.size := Nat.lt_of_lt_of_le (by omega : 1 + a < n + 2) room
    rw [counter, UInt32.toNat_ofNat_of_lt' small]
  have more (next : r'.node.nextCid = r.node.nextCid + 1) : r'.node.nextCid = UInt32.ofNat (1 + (a + 1)) := by
    rw [next, counter, ← Nat.add_assoc, UInt32.ofNat_add _ 1]
    rfl
  refine ⟨?_, fun i j cid at_i at_j => ?_, books.registered.step hears, books.held.step books.registered hears,
    books.awaited.step books.registered books.single hears⟩
  · by_cases takes : ∃ i, event' = .alloc i
    · obtain ⟨i, rfl⟩ := takes
      refine ⟨a + 1, by omega, more hears.alloc_nextCid, fun j cid here => ?_⟩
      rcases hears.cidAt here with old | ⟨-, rfl⟩
      · exact (below j cid old).trans (Nat.le_succ a)
      · omega
    · have old (j : Nat) (cid : UInt32) (here : r'.cidAt j = some cid) : r.cidAt j = some cid :=
        (hears.cidAt here).resolve_right fun new => takes ⟨j, new.1⟩
      rcases step.nextCid with same | next
      · exact ⟨a, by omega, same.trans counter, fun j cid here => below j cid (old j cid here)⟩
      · exact ⟨a + 1, by omega, more next, fun j cid here => (below j cid (old j cid here)).trans (Nat.le_succ a)⟩
  -- The counter is above all cids taken so far, as it has not wrapped.
  · have unused (k : Nat) : r.cidAt k ≠ some r.node.nextCid := by
      intro old
      have small := below k _ old
      omega
    rcases hears.cidAt at_i with old | ⟨rfl, rfl⟩ <;> rcases hears.cidAt at_j with old' | ⟨same, new⟩
    · exact books.single i j cid old old'
    · exact absurd (new ▸ old) (unused i)
    · exact absurd old' (unused j)
    · exact BuildEvent.alloc.inj same

theorem run {seed : C.Rng} {events : List Event} (run : Run Step (Builds.spawn C seed) events r)
    (few : events.length < 2 ^ 32) : Books events.length r := by
  induction run with
  | nil => exact .spawn seed
  | snoc _ last ih =>
    rw [List.length_append, List.length_singleton] at few ⊢
    exact (ih (by omega)).step (by omega) last

end Books

/-! ## What the node waits for -/

/-- In every run that allocates fewer cids than there are: `pending` holds the senders of the builds that wait and have not
been answered, each under its own cid, and else nothing but what a build whose time is up has still to remove; no two builds
take the same cid, and nothing is left under the cid of a handle. -/
theorem pending_exact (seed : C.Rng) {events : List Event} {r : Running C} (run : Run Step (Builds.spawn C seed) events r)
    (few : events.length < 2 ^ 32) :
    (∀ i task tx, r.stages.get i = some (.waiting task tx) → r.oneshots.get tx ≠ some .sent →
      r.node.pending.get task.cid = some tx) ∧
    (∀ cid tx, r.node.pending.get cid = some tx →
      ∃ i task, (r.stages.get i = some (.waiting task tx) ∧ r.oneshots.get tx ≠ some .sent ∨
        r.stages.get i = some (.expired task)) ∧ task.cid = cid) ∧
    (∀ i j cid, r.cidAt i = some cid → r.cidAt j = some cid → i = j) ∧
      ∀ handle, r.Holds handle → r.node.pending.get handle.cid = none := by
  have books := Books.run run few
  refine ⟨fun i task tx waits unsent => (books.awaited i task tx waits).resolve_left unsent, fun cid tx here => ?_, books.single,
    fun handle ⟨j, done⟩ => ?_⟩
  · obtain ⟨i, task, waits | late, own⟩ := books.held cid tx here
    · have empty := (books.registered.empty cid tx here).2
      exact ⟨i, task, .inl ⟨waits, by rw [empty]; simp⟩, own⟩
    · exact ⟨i, task, .inr late, own⟩
  · cases waiting : r.node.pending.get handle.cid with
    | none => rfl
    | some tx =>
      have has : r.cidAt j = some handle.cid := Builds.cidAt_of done
      obtain ⟨i, task, waits | late, own⟩ := books.held handle.cid tx waiting
      · obtain rfl := books.single i j handle.cid ((Builds.cidAt_of waits).trans (congrArg some own)) has
        cases waits.symm.trans done
      · obtain rfl := books.single i j handle.cid ((Builds.cidAt_of late).trans (congrArg some own)) has
        cases late.symm.trans done

/-! ## Closed circuits -/

variable {r r' : Running C} {handle : CircuitHandle}

theorem recv_origin (lookup : Lookup) (src : SocketAddr) (cell : Cell) {cid : UInt32} {entry : CircuitEntry}
    (here : (r.recv lookup src cell).node.circuits.get cid = some entry) (origin : entry.lastFwd? = none) :
    ∃ entry', r.node.circuits.get cid = some entry' ∧ entry'.lastFwd? = none := by
  have circuits : (r.recv lookup src cell).node.circuits = _ := r.node.handleCell_circuits lookup src cell
  rw [circuits] at here
  cases cmd : cell.cmd with
  | create =>
    rw [cmd] at here
    cases completed : r.node.completes cell with
    | none =>
      rw [completed] at here
      exact ⟨entry, here, origin⟩
    | some outcome =>
      rw [completed] at here
      rcases Table.get_insert_some here with ⟨-, rfl⟩ | ⟨-, before⟩
      · cases outcome <;> cases origin
      · exact ⟨entry, before, origin⟩
  | relay =>
    rw [cmd] at here
    cases found : r.node.relays src cell with
    | none =>
      rw [found] at here
      exact ⟨entry, here, origin⟩
    | some handled =>
      obtain ⟨msg, old, decision⟩ := handled
      obtain ⟨-, stored, -⟩ := Node.relays_some found
      rw [found] at here
      simp only [Decision.get_commit stored] at here
      split at here
      next own =>
        obtain ⟨rfl, -⟩ := own
        refine ⟨old, stored, ?_⟩
        rw [← Option.some.inj here] at origin
        cases old with
        | origin => rfl
        | relay | terminal => cases origin
      next => exact ⟨entry, here, origin⟩
  | destroy =>
    rw [cmd] at here
    exact ⟨entry, Table.get_remove_some here, origin⟩
  | created | padding =>
    rw [cmd] at here
    exact ⟨entry, here, origin⟩

theorem Step.origin {event : Event} (step : Step r event r') {cid : UInt32} {entry : CircuitEntry}
    (here : r'.node.circuits.get cid = some entry) (origin : entry.lastFwd? = none) :
    (∃ entry', r.node.circuits.get cid = some entry' ∧ entry'.lastFwd? = none) ∨
      ∃ i task, r.stages.get i = some (.resolved task) ∧ task.cid = cid := by
  cases step with
  | recv lookup src cell => exact .inl (recv_origin lookup src cell here origin)
  | build own step =>
    rcases step.moved own with ⟨rng, pending, -, same⟩ | ⟨-, resolved, rfl⟩
    · rw [same] at here
      exact .inl ⟨entry, here, origin⟩
    · rcases Table.get_insert_some here with ⟨rfl, -⟩ | ⟨-, before⟩
      · exact .inr ⟨_, _, resolved, rfl⟩
      · exact .inl ⟨entry, before, origin⟩
  | openStream c stream tx =>
    simp only [Node.registerStream] at here
    split at here
    next stored =>
      rcases Table.get_insert_some here with ⟨rfl, -⟩ | ⟨-, before⟩
      · exact .inl ⟨_, stored, rfl⟩
      · exact .inl ⟨entry, before, origin⟩
    next => exact .inl ⟨entry, here, origin⟩
  | send stream rcmd msg _ =>
    simp only [Node.send] at here
    split at here <;> exact .inl ⟨entry, here, origin⟩
  | close _ =>
    simp only [Node.close] at here
    split at here
    · exact .inl ⟨entry, Table.get_remove_some here, origin⟩
    · exact .inl ⟨entry, here, origin⟩

structure Closed (handle : CircuitHandle) (r : Running C) : Prop where
  held : r.Holds handle
  gone : ∀ entry, r.node.circuits.get handle.cid = some entry → entry.lastFwd? ≠ none

theorem Closed.step {n : Nat} (books : Books n r) (closed : Closed handle r) {event : Event} (step : Step r event r') :
    Closed handle r' := by
  refine ⟨step.holds closed.held, fun entry here origin => ?_⟩
  rcases step.origin here origin with ⟨entry', before, origin'⟩ | ⟨i, task, resolved, own⟩
  · exact closed.gone entry' before origin'
  · obtain ⟨j, done⟩ := closed.held
    obtain rfl := books.single i j handle.cid ((Builds.cidAt_of resolved).trans (congrArg some own)) (Builds.cidAt_of done)
    cases resolved.symm.trans done

theorem closed_of_close (held : r.Holds handle) (step : Step r (.close handle) r') : Closed handle r' := by
  refine ⟨step.holds held, fun entry here origin => ?_⟩
  cases step with
  | close _ =>
    simp only [Node.close] at here
    split at here
    next => exact Table.ne_of_get_remove here rfl
    next none =>
      cases entry with
      | origin fwd bwd tag next streams => exact none _ _ _ _ _ here
      | relay | terminal => cases origin

theorem Closed.silent (closed : Closed handle r) :
    (∀ stream rcmd msg, (r.node.send handle stream rcmd msg).2 = ([], .error .noSession)) ∧
      r.node.close handle = (r.node, []) := by
  have gone (fwd bwd : List (Octets 32)) (tag : Octets 16) (next : HopLink) (streams : Table UInt16 StreamTx) :
      r.node.circuits.get handle.cid ≠ some (.origin fwd bwd tag next streams) := fun here => closed.gone _ here rfl
  cases stored : r.node.circuits.get handle.cid with
  | none => simp only [Node.send, Node.close, stored, implies_true, and_self]
  | some entry =>
    cases entry with
    | origin => exact absurd stored (gone _ _ _ _ _)
    | relay | terminal => simp only [Node.send, Node.close, stored, implies_true, and_self]

/-- A circuit that has been closed stays closed: whatever comes in afterwards and whatever else is built, nothing is sent on
its handle again and no stream of it is handed anything, as long as the cids of the run do not wrap. -/
theorem closed_stays (seed : C.Rng) {before after : List Event} {r s t : Running C}
    (run : Run Step (Builds.spawn C seed) before r) {handle : CircuitHandle} (closes : Step r (.close handle) s)
    (later : Run Step s after t) (few : before.length + 1 + after.length < 2 ^ 32) :
    (∀ stream rcmd msg, (t.node.send handle stream rcmd msg).2 = ([], .error .noSession)) ∧
      t.node.close handle = (t.node, []) ∧ ∀ src cell, cell.cid = handle.cid → ∀ tx data,
        .deliver tx data ∉ (t.node.handleRelay src cell).2 := by
  have held : r.Holds handle := by
    cases closes with
    | close held => exact held
  have books {events : List Event} {u : Running C} (sofar : Run Step s events u)
      (fits : before.length + 1 + events.length < 2 ^ 32) : Books ((before ++ [Event.close handle]) ++ events).length u :=
    Books.run ((run.snoc closes).trans sofar) (by rwa [List.length_append, List.length_append, List.length_singleton])
  have closed : Closed handle t := by
    induction later with
    | nil => exact closed_of_close held closes
    | snoc sofar last ih =>
      rw [List.length_append, List.length_singleton] at few
      exact (ih (by omega)).step (books sofar (by omega)) last
  obtain ⟨sends, close⟩ := closed.silent
  refine ⟨sends, close, fun src cell own tx data delivered => ?_⟩
  obtain ⟨entry, stored, origin⟩ := Node.handleRelay_delivers delivered
  exact closed.gone entry (own ▸ stored) origin

end Running
namespace Transparent

open Nbf.Crypto.Transparent

theorem closed_for_good : ∃ (r s : Running crates) (handle : CircuitHandle) (events : List Event),
    Run Running.Step (.spawn crates (50 : UInt8)) events r ∧ Running.Step r (.close handle) s ∧
      (s.node.send handle 1 .echo []).2 = ([], .error .noSession) := by
  obtain ⟨events, r, handle, run, held, -, few⟩ := circuit_opens
  have closed := Running.closed_stays (50 : UInt8) run (.close held) (.nil _) (by rw [List.length_nil]; omega)
  exact ⟨r, _, handle, events, run, .close held, closed.1 1 .echo []⟩

theorem opened_waits_for_nothing : ∃ (r : Running crates) (handle : CircuitHandle) (events : List Event),
    Run Running.Step (.spawn crates (50 : UInt8)) events r ∧ r.Holds handle ∧ r.node.pending.get handle.cid = none := by
  obtain ⟨events, r, handle, run, held, -, few⟩ := circuit_opens
  obtain ⟨-, -, -, none⟩ := Running.pending_exact (C := crates) (50 : UInt8) run (by omega)
  exact ⟨r, handle, events, run, held, none handle held⟩

end Transparent
end Nbf.Net

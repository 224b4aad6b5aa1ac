import Nbf.Library.Walk
import Nbf.Net.Build
import Nbf.Net.Control
import Nbf.Net.World

/-! The cells that one CREATED or DESTROY leads to.

DESTROY takes away the entry it follows. CREATED follows the entries and leaves
them where they are.
-/

set_option autoImplicit false

namespace Nbf.Net

open Nbf.Library Nbf.Crypto

variable {C : Crates}

def Packet.slot (p : Packet) : SocketAddr × UInt32 := (p.dst, p.cell.cid)

def Packet.Control (p : Packet) : Prop := p.cell.cmd = .created ∨ p.cell.cmd = .destroy

instance (p : Packet) : Decidable p.Control := inferInstanceAs (Decidable (_ ∨ _))

namespace Network

/-- The handlers send only finitely many CREATED and DESTROY cells in answer to `p`: those that have arrived and those
still in flight, `p` itself among them. -/
def AnswersFinitely (net : Network C) (p : Packet) : Prop :=
  ∃ bound, ∀ labels net', Run Step { net with wire := [p] } labels net' →
    (labels ++ net'.wire).countP (fun q => decide q.Control) ≤ bound + 1

def onward (net : Network C) (slot : SocketAddr × UInt32) : Option (SocketAddr × UInt32) :=
  (net.nodes.get slot.1).bind fun node =>
    match node.pending.get slot.2, node.circuits.get slot.2 with
    | none, some (.relay _ _ _ prev _ _) => some (prev.peer, prev.cid)
    | _, _ => none

theorem onward_listed {net : Network C} {places : List (SocketAddr × UInt32)} (listed : net.Listed places)
    (slot : SocketAddr × UInt32) (goes : (net.onward slot).isSome) : slot ∈ places := by
  refine listed slot.1 slot.2 fun empty => ?_
  rw [onward] at goes
  cases present : net.nodes.get slot.1 with
  | none =>
    rw [present] at goes
    cases goes
  | some node =>
    rw [entryAt_of_get present] at empty
    simp [present, empty] at goes

/-! ## CREATED -/

theorem receive_created_onward (net : Network C) (lookup : Lookup) {p : Packet} (cmd : p.cell.cmd = .created)
    {slot : SocketAddr × UInt32} (goes : net.onward p.slot = some slot) :
    net.receive lookup p [] = { net with wire := [createdPacket p.dst slot.1 slot.2] } := by
  unfold onward at goes
  cases present : net.nodes.get p.dst with
  | none => simp [Packet.slot, present] at goes
  | some node =>
    simp only [Packet.slot, present, Option.bind_some] at goes
    split at goes
    next waiting stored =>
      cases goes
      simp only [receive, present, Node.handleCell, cmd, Node.handleCreated, waiting, stored, update, packetsOf_created,
        Table.insert_get_self _ present]
      simp [noticesOf]
    next => cases goes

theorem receive_created_end (net : Network C) (lookup : Lookup) {p : Packet} (cmd : p.cell.cmd = .created)
    (halts : net.onward p.slot = none) : (net.receive lookup p []).wire = [] := by
  unfold onward at halts
  cases present : net.nodes.get p.dst with
  | none => simp only [receive, present]
  | some node =>
    simp only [receive, present, Node.handleCell, cmd, Node.handleCreated]
    cases waiting : node.pending.get p.cell.cid with
    | some tx => rfl
    | none =>
      simp only [Packet.slot, present, Option.bind_some, waiting] at halts
      cases stored : node.circuits.get p.cell.cid with
      | none => rfl
      | some entry =>
        cases entry with
        | relay => simp [stored] at halts
        | origin | terminal => rfl

/-- In a run from one CREATED, there is one CREATED, as far along as the run is long, or it has come to an end. -/
theorem created_run {net net' : Network C} {p : Packet} (cmd : p.cell.cmd = .created) {labels : List Packet}
    (run : Run Step { net with wire := [p] } labels net') :
    (∃ q, q.cell.cmd = .created ∧ net' = { net with wire := [q] } ∧ along net.onward p.slot labels.length = some q.slot) ∨
      (net'.wire = [] ∧ ∃ n slot, labels.length = n + 1 ∧ along net.onward p.slot n = some slot) := by
  induction run with
  | nil => exact .inl ⟨p, cmd, rfl, rfl⟩
  | @snoc _ _ labels label _ last ih =>
    rw [List.length_append, List.length_singleton]
    rcases ih with ⟨q, cmd, rfl, there⟩ | ⟨empty, -⟩
    · obtain ⟨lookup, rfl⟩ := step_single (q := label) (p := q) rfl (by simp) last
      have carried : ({ net with wire := [q] } : Network C).onward q.slot = net.onward q.slot := rfl
      cases goes : net.onward q.slot with
      | some slot =>
        refine .inl ⟨createdPacket q.dst slot.1 slot.2, rfl, receive_created_onward _ lookup cmd (carried.trans goes), ?_⟩
        rw [along_succ, there, Option.bind_some, goes]
        rfl
      | none => exact .inr ⟨receive_created_end _ lookup cmd (carried.trans goes), labels.length, q.slot, rfl, there⟩
    · exact absurd last (quiet empty)

theorem created_goes (net : Network C) {p : Packet} (cmd : p.cell.cmd = .created) (n : Nat) {slot : SocketAddr × UInt32}
    (there : along net.onward p.slot n = some slot) :
    ∃ labels q, Run Step { net with wire := [p] } labels { net with wire := [q] } ∧ labels.length = n ∧
      (∀ label ∈ labels, label.cell.cmd = .created) ∧ q.cell.cmd = .created ∧ q.slot = slot := by
  induction n generalizing slot with
  | zero => exact ⟨[], p, .nil _, rfl, by simp, cmd, Option.some.inj there⟩
  | succ n ih =>
    rw [along_succ] at there
    obtain ⟨mid, before, goes⟩ := Option.bind_eq_some_iff.mp there
    obtain ⟨labels, q, run, rfl, created, cmd, rfl⟩ := ih before
    have step : Step { net with wire := [q] } q { net with wire := [createdPacket q.dst slot.1 slot.2] } := by
      have alone : ({ net with wire := [q] } : Network C).wire = [] ++ q :: [] := rfl
      have delivered := Step.deliver (fun _ => .error .timeout) alone (by simp)
      rwa [List.nil_append, receive_created_onward { net with wire := [q] } _ cmd goes] at delivered
    refine ⟨labels ++ [q], createdPacket q.dst slot.1 slot.2, run.snoc step, by simp, ?_, rfl, rfl⟩
    intro label member
    rcases List.mem_append.mp member with early | last
    · exact created label early
    · rw [List.mem_singleton.mp last, cmd]

theorem created_finitely_iff {net : Network C} {places : List (SocketAddr × UInt32)} (listed : net.Listed places) {p : Packet}
    (cmd : p.cell.cmd = .created) : net.AnswersFinitely p ↔ ¬ ComesBack net.onward p.slot := by
  rw [← along_ends_iff (onward_listed listed)]
  constructor
  · rintro ⟨bound, bounded⟩
    refine ⟨bound + 1, ?_⟩
    cases there : along net.onward p.slot (bound + 1) with
    | none => rfl
    | some slot =>
      obtain ⟨labels, q, run, length, created, cmd', -⟩ := net.created_goes cmd _ there
      have sent := bounded labels _ run
      have all : (labels ++ [q]).countP (fun q => decide q.Control) = (labels ++ [q]).length := by
        refine List.countP_eq_length.mpr fun label member => decide_eq_true (.inl ?_)
        rcases List.mem_append.mp member with early | last
        · exact created label early
        · rw [List.mem_singleton.mp last, cmd']
      rw [all, List.length_append, List.length_singleton, length] at sent
      omega
  · rintro ⟨n, end_⟩
    refine ⟨n, fun labels net' run => List.countP_le_length.trans ?_⟩
    rw [List.length_append]
    rcases created_run cmd run with ⟨q, -, rfl, there⟩ | ⟨empty, m, slot, length, there⟩
    · have before := along_lt there end_
      rw [List.length_singleton]
      omega
    · have before := along_lt there end_
      rw [empty, List.length_nil]
      omega

/-! ## DESTROY -/

def stored (net : Network C) (places : List (SocketAddr × UInt32)) : Nat :=
  places.countP fun place => (net.entryAt place.1 place.2).isSome

structure Ending (places : List (SocketAddr × UInt32)) (net : Network C) : Prop where
  destroys : ∀ p ∈ net.wire, p.cell.cmd = .destroy
  listed : net.Listed places

theorem stored_taken {net net' : Network C} {places : List (SocketAddr × UInt32)} (listed : net.Listed places)
    {slot : SocketAddr × UInt32}
    (taken : ∀ addr cid, net'.entryAt addr cid = if (addr, cid) = slot then none else net.entryAt addr cid) :
    net'.stored places + (net.entryAt slot.1 slot.2).isSome.toNat ≤ net.stored places := by
  have fewer (some : List (SocketAddr × UInt32)) : net'.stored some ≤ net.stored some := by
    refine List.countP_mono_left fun place _ still => ?_
    rw [taken] at still
    split at still
    · cases still
    · exact still
  cases here : net.entryAt slot.1 slot.2 with
  | none => exact fewer places
  | some entry =>
    obtain ⟨before, after, rfl⟩ := List.append_of_mem (listed slot.1 slot.2 (by rw [here]; exact Option.some_ne_none _))
    have gone : net'.entryAt slot.1 slot.2 = none := by rw [taken, if_pos rfl]
    have first := fewer before
    have later := fewer after
    simp only [stored, List.countP_append, List.countP_cons, here, gone, Option.isSome_some, Option.isSome_none, Bool.toNat_true,
      if_true, Bool.false_eq_true, if_false] at first later ⊢
    omega

namespace Ending

variable {places : List (SocketAddr × UInt32)} {net net' : Network C} {label : Packet}

/-- A DESTROY either is used up or takes an entry away. -/
theorem step (ending : Ending places net) (step : Step net label net') :
    Ending places net' ∧ net'.stored places + net'.wire.length < net.stored places + net.wire.length := by
  obtain ⟨-, destroys, taken, rest, -, length, sent⟩ := step_destroys ending.destroys step
  refine ⟨⟨destroys, fun addr cid there => ?_⟩, ?_⟩
  · rw [taken] at there
    split at there
    · exact absurd rfl there
    · exact ending.listed addr cid there
  · have less := stored_taken ending.listed taken
    have few := destroyed_length label.dst (net.entryAt label.dst label.cell.cid)
    rw [sent, List.length_append]
    dsimp only at less
    omega

end Ending

theorem destroy_finitely {net : Network C} {places : List (SocketAddr × UInt32)} (listed : net.Listed places) {p : Packet}
    (cmd : p.cell.cmd = .destroy) : net.AnswersFinitely p := by
  refine ⟨net.stored places, fun labels net' run => List.countP_le_length.trans ?_⟩
  have ending : Ending places { net with wire := [p] } := ⟨fun q only => List.mem_singleton.mp only ▸ cmd, listed⟩
  have used := run.length_le (Ending places) (fun net => net.stored places + net.wire.length)
    (fun _ _ _ ending step => (ending.step step).1) (fun _ _ _ ending step => (ending.step step).2) ending
  have start : ({ net with wire := [p] } : Network C).stored places = net.stored places := rfl
  rw [start, List.length_singleton] at used
  rw [List.length_append]
  omega

end Network

/-! ## Either -/

/-- In a world of nodes that build circuits, the cells that answer one CREATED or DESTROY are finitely many, but for a
CREATED whose way along the entries comes back to where it was. -/
theorem World.control_finite_iff {start w : World C} {events : List World.Event} (fresh : start.Fresh)
    (run : Run World.Step start events w) {p : Packet} (control : p.Control) :
    w.net.AnswersFinitely p ↔ (p.cell.cmd = .created → ¬ ComesBack w.net.onward p.slot) := by
  obtain ⟨places, listed⟩ := fresh.listed run
  rcases control with created | destroy
  · rw [Network.created_finitely_iff listed created]
    exact ⟨fun never _ => never, fun finite => finite created⟩
  · refine iff_of_true (Network.destroy_finitely listed destroy) fun created => ?_
    rw [destroy] at created
    cases created

namespace World

def deliverFirst (w : World C) : World C :=
  match w.net.wire with
  | [] => w
  | p :: rest => { w with net := w.net.receive (fun _ => .error .timeout) p rest }

def awaitFirst (w : World C) : World C :=
  match w.waiting with
  | [] => w
  | (addr, tx, task) :: _ => w.await addr tx task

theorem run_deliverFirst (w : World C) (n : Nat) : ∃ events, Run Step w events (deliverFirst^[n] w) := by
  induction n with
  | zero => exact ⟨[], .nil w⟩
  | succ n ih =>
    obtain ⟨events, run⟩ := ih
    rw [Function.iterate_succ_apply', deliverFirst]
    split
    · exact ⟨events, run⟩
    next p rest wire =>
      have first : (deliverFirst^[n] w).net.wire = [] ++ p :: rest := wire
      exact ⟨_, run.snoc (.deliver (.deliver _ first (by simp)))⟩

theorem run_awaitFirst (w : World C) : ∃ events, Run Step w events w.awaitFirst := by
  rw [awaitFirst]
  split
  · exact ⟨[], .nil w⟩
  next waiting => exact ⟨_, .single (.await (by rw [waiting]; exact List.mem_cons_self))⟩

end World

namespace Transparent

open Nbf.Crypto.Transparent

def twinLookup : Lookup := fun id =>
  if id = .replicate 20 1 then .ok (descriptor 1 9100)
  else if id = .replicate 20 20 then .ok (descriptor 20 9101)
  else if id = .replicate 20 50 then .ok (descriptor 50 9000) else .error .timeout

def twins : World crates where
  net := { nodes := (Table.empty.insert (localhost 9100) (.spawn crates (1 : UInt8))).insert (localhost 9101)
             (.spawn crates (20 : UInt8)), wire := [], notices := [] }
  waiting := []
  nextTx := 0

theorem twins_fresh : twins.Fresh := by
  intro addr node present
  rcases Table.get_insert_some present with ⟨-, rfl⟩ | ⟨-, before⟩
  · rfl
  rcases Table.get_insert_some before with ⟨-, rfl⟩ | ⟨-, none⟩
  · rfl
  · cases none

def twinsStarted : World crates :=
  (twins.build (localhost 9100) twinLookup [.replicate 20 20, .replicate 20 50]).build (localhost 9101) twinLookup
    [.replicate 20 1, .replicate 20 50]

def twinsBuilding : World crates := (World.deliverFirst^[4] twinsStarted).awaitFirst

theorem run_twinsBuilding : ∃ events, Run World.Step twins events twinsBuilding := by
  have first := Run.single (World.Step.build twins (localhost 9100) twinLookup [.replicate 20 20, .replicate 20 50])
  have started := first.snoc (.build _ (localhost 9101) twinLookup [.replicate 20 1, .replicate 20 50])
  obtain ⟨_, delivered⟩ := twinsStarted.run_deliverFirst 4
  obtain ⟨_, awaited⟩ := (World.deliverFirst^[4] twinsStarted).run_awaitFirst
  exact ⟨_, (started.trans delivered).trans awaited⟩

theorem twins_onward :
    (twinsBuilding.net.onward (localhost 9101, 1) = some (localhost 9100, 1) ∧
      twinsBuilding.net.onward (localhost 9100, 1) = none) ∧
    twinsBuilding.awaitFirst.net.onward (localhost 9100, 1) = some (localhost 9101, 1) ∧
      twinsBuilding.awaitFirst.net.onward (localhost 9101, 1) = some (localhost 9100, 1) := by decide +kernel

/-- While the first one waits, a CREATED that comes to the second one goes there, and no further. -/
theorem waiting_twin_finite : ∃ events, Run World.Step twins events twinsBuilding ∧
    twinsBuilding.net.AnswersFinitely (createdPacket (localhost 9000) (localhost 9101) 1) := by
  obtain ⟨events, run⟩ := run_twinsBuilding
  obtain ⟨places, listed⟩ := twins_fresh.listed run
  refine ⟨events, run, (World.control_finite_iff twins_fresh run (.inl rfl)).mpr fun _ => ?_⟩
  obtain ⟨⟨goes, halts⟩, -⟩ := twins_onward
  refine (along_ends_iff (Network.onward_listed listed) _).mp ⟨2, ?_⟩
  change ((twinsBuilding.net.onward (localhost 9101, 1)).bind fun slot => along _ slot 1) = none
  rw [goes, Option.bind_some, along, halts, Option.bind_none]

/-- Once neither waits, CREATED goes from one to the other and back for ever. -/
theorem twins_go_round : twins.Fresh ∧ ∃ events, Run World.Step twins events twinsBuilding.awaitFirst ∧
    ¬ twinsBuilding.awaitFirst.net.AnswersFinitely (createdPacket (localhost 9000) (localhost 9100) 1) := by
  obtain ⟨_, building⟩ := run_twinsBuilding
  obtain ⟨_, awaited⟩ := twinsBuilding.run_awaitFirst
  have run := building.trans awaited
  obtain ⟨places, listed⟩ := twins_fresh.listed run
  refine ⟨twins_fresh, _, run, fun finite => ?_⟩
  refine (Network.created_finitely_iff listed rfl).mp finite ⟨0, 2, (localhost 9100, 1), Nat.two_pos, rfl, ?_⟩
  obtain ⟨-, there, back⟩ := twins_onward
  rw [along, there, Option.bind_some, along, back]
  rfl

end Transparent
end Nbf.Net

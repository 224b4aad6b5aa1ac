import Nbf.Net.Build
import Nbf.Net.Ownership
import Nbf.Net.RelayTasks

/-! Tasks that may overlap and still do what some order of uninterrupted calls does.

A task counts where it ends, with its send. Until then it holds its cell, and what it has read still
stands under the cid, up to a `last_fwd` that other cells of the circuit may have raised.
-/

set_option autoImplicit false

namespace Nbf.Net

open Nbf.Library Nbf.Crypto

variable {C : Crates}

/-! ## Decisions on a raised `last_fwd` -/

@[simp] theorem CircuitEntry.behind_withLastFwd (entry : CircuitEntry) (src : SocketAddr) (seq : UInt32) :
    (entry.withLastFwd seq).Behind src ↔ entry.Behind src := by
  cases entry <;> rfl

theorem relayDecide_beyond {entry : CircuitEntry} {src : SocketAddr} (beyond : ¬ entry.Behind src) (msg : RelayMsg) (seq : UInt32) :
    relayDecide C (entry.withLastFwd seq) src msg = relayDecide C entry src msg := by
  cases entry with
  | origin => rfl
  | relay tag kFwd kBwd prev next lastFwd =>
    have other : src ≠ prev.peer := fun same => beyond same.symm
    simp only [CircuitEntry.withLastFwd, relayDecide, if_neg other]
  | terminal tag kFwd kBwd prev lastFwd =>
    have other : src ≠ prev.peer := fun same => beyond same.symm
    simp only [CircuitEntry.withLastFwd, relayDecide, other, ne_eq, not_false_eq_true, true_or, if_true]

theorem relayDecide_behind {entry : CircuitEntry} {src : SocketAddr} {msg : RelayMsg}
    (accepted : (relayDecide C entry src msg).accepted) : entry.Behind src := by
  by_contra beyond
  cases entry with
  | origin fwd bwd tag next streams =>
    obtain ⟨last, has, -⟩ := relayDecide_accepted accepted
    cases has
  | relay tag kFwd kBwd prev next lastFwd =>
    have other : src ≠ prev.peer := fun same => beyond same.symm
    simp only [relayDecide, if_neg other] at accepted
    split at accepted <;> cases accepted
  | terminal tag kFwd kBwd prev lastFwd =>
    have other : src ≠ prev.peer := fun same => beyond same.symm
    simp only [relayDecide, other, ne_eq, not_false_eq_true, true_or, if_true] at accepted
    cases accepted

/-- What was not accepted is decided in the same way when `last_fwd` has gone up. -/
theorem relayDecide_raised {entry : CircuitEntry} {src : SocketAddr} {msg : RelayMsg} {last seq : UInt32}
    (has : entry.lastFwd? = some last) (above : last < seq) (refused : ¬ (relayDecide C entry src msg).accepted) :
    relayDecide C (entry.withLastFwd seq) src msg = relayDecide C entry src msg := by
  by_cases behind : entry.Behind src
  case neg => exact relayDecide_beyond behind msg seq
  cases entry with
  | origin => cases has
  | relay tag kFwd kBwd prev next lastFwd =>
    obtain rfl : prev.peer = src := behind
    obtain rfl : lastFwd = last := Option.some.inj has
    simp only [CircuitEntry.withLastFwd, relayDecide, if_true] at refused ⊢
    by_cases replay : msg.seq ≤ lastFwd
    · rw [if_pos replay, if_pos (UInt32.le_trans replay (UInt32.le_of_lt above))]
    · rw [if_neg replay] at refused ⊢
      cases opened : openOnion C kFwd tag msg.seq msg.onion with
      | ok inner =>
        rw [opened] at refused
        exact absurd rfl refused
      | error err => simp only [ite_self]
      | panic => simp only [ite_self]
  | terminal tag kFwd kBwd prev lastFwd =>
    obtain rfl : prev.peer = src := behind
    obtain rfl : lastFwd = last := Option.some.inj has
    simp only [CircuitEntry.withLastFwd, relayDecide, ne_eq, not_true_eq_false, false_or] at refused ⊢
    by_cases replay : msg.seq ≤ lastFwd
    · rw [if_pos replay, if_pos (UInt32.le_trans replay (UInt32.le_of_lt above))]
    · rw [if_neg replay] at refused ⊢
      cases opened : openOnion C kFwd tag msg.seq msg.onion with
      | ok inner =>
        rw [opened] at refused
        cases rcmd : msg.rcmd <;> exact absurd (by simp only [rcmd]; rfl) refused
      | error err => simp only [ite_self]
      | panic => simp only [ite_self]

/-! ## One call after another -/

def Node.relayAll (node : Node C) (cells : List (SocketAddr × Cell)) : Node C × List Effect :=
  cells.foldl (fun (node, sent) (src, cell) => ((node.handleRelay src cell).1, sent ++ (node.handleRelay src cell).2)) (node, [])

theorem Node.relayAll_snoc (node : Node C) (cells : List (SocketAddr × Cell)) (src : SocketAddr) (cell : Cell) :
    node.relayAll (cells ++ [(src, cell)]) = (((node.relayAll cells).1.handleRelay src cell).1,
      (node.relayAll cells).2 ++ ((node.relayAll cells).1.handleRelay src cell).2) := by
  rw [relayAll, List.foldl_append]
  rfl

theorem Node.handleRelay_decided {node : Node C} (src : SocketAddr) {cell : Cell} {msg : RelayMsg} {entry : CircuitEntry}
    (parsed : parseRelay cell.payload = .ok msg) (stored : node.circuits.get cell.cid = some entry) :
    (node.handleRelay src cell).1.circuits = (relayDecide C entry src msg).commit entry node.circuits cell.cid msg.seq ∧
      (node.handleRelay src cell).2 = (relayDecide C entry src msg).effects := by
  simp only [handleRelay, parsed, stored, and_self]

/-! ## Tasks against the node -/

/-- The circuit of which a task has accepted a forward cell that it has not sent on yet. -/
def Task.forwards : Task → Option UInt32
  | .decided cid _ _ _ => some cid
  | .sending (some (cid, _)) _ => some cid
  | _ => none

/-- How far a task is with its cell, in terms of what the node would make of the cell now. -/
inductive Stage (node : Node C) (src : SocketAddr) (cell : Cell) : Task → Prop where
  | arrived : Stage node src cell (.arrived src cell)
  | decided {msg : RelayMsg} {entry : CircuitEntry} : parseRelay cell.payload = .ok msg →
      node.circuits.get cell.cid = some entry → (relayDecide C entry src msg).accepted →
      Stage node src cell (.decided cell.cid entry msg.seq (relayDecide C entry src msg).effects)
  | written {msg : RelayMsg} {entry : CircuitEntry} : parseRelay cell.payload = .ok msg →
      node.circuits.get cell.cid = some entry → (relayDecide C entry src msg).accepted →
      Stage node src cell (.sending (some (cell.cid, msg.seq)) (relayDecide C entry src msg).effects)
  | refused {msg : RelayMsg} {entry : CircuitEntry} : parseRelay cell.payload = .ok msg →
      node.circuits.get cell.cid = some entry → ¬ (relayDecide C entry src msg).accepted →
      Stage node src cell (.sending none (relayDecide C entry src msg).effects)

theorem Stage.congr {node node' : Node C} (same : node'.circuits = node.circuits) {src : SocketAddr} {cell : Cell} {task : Task}
    (stage : Stage node src cell task) : Stage node' src cell task := by
  cases stage with
  | arrived => exact .arrived
  | decided parsed stored accepted => exact .decided parsed (same ▸ stored) accepted
  | written parsed stored accepted => exact .written parsed (same ▸ stored) accepted
  | refused parsed stored refused => exact .refused parsed (same ▸ stored) refused

theorem Stage.commit {node : Node C} {src src' : SocketAddr} {cell cell' : Cell} {task : Task} (stage : Stage node src cell task)
    {msg : RelayMsg} {entry : CircuitEntry} (parsed : parseRelay cell'.payload = .ok msg)
    (stored : node.circuits.get cell'.cid = some entry) (other : task.forwards ≠ some cell'.cid) :
    Stage (node.handleRelay src' cell').1 src cell task := by
  obtain ⟨circuits, -⟩ := Node.handleRelay_decided src' parsed stored
  have elsewhere {cid : UInt32} (apart : cid ≠ cell'.cid) :
      (node.handleRelay src' cell').1.circuits.get cid = node.circuits.get cid := by
    rw [circuits, Decision.get_commit stored, if_neg fun here => apart here.1]
  cases stage with
  | arrived => exact .arrived
  | decided parsed' stored' accepted =>
    exact .decided parsed' ((elsewhere fun same => other (congrArg some same)).trans stored') accepted
  | written parsed' stored' accepted =>
    exact .written parsed' ((elsewhere fun same => other (congrArg some same)).trans stored') accepted
  | @refused msg' entry' parsed' stored' refused =>
    have here := congrArg (Table.get · cell.cid) circuits
    rw [Decision.get_commit stored] at here
    split at here
    next raised =>
      obtain ⟨same, accepted⟩ := raised
      obtain rfl : entry = entry' := Option.some.inj (stored.symm.trans (same ▸ stored'))
      obtain ⟨last, has, above⟩ := relayDecide_accepted accepted
      have still := relayDecide_raised has above refused
      rw [← still]
      exact .refused parsed' here (still ▸ refused)
    next => exact .refused parsed' (here.trans stored') refused

namespace Tasks

/-- A task reads a cell of the previous hop only when no other has accepted one of the same circuit and not yet sent it on. -/
def Exclusive (s : Tasks) (act : Act) (_ : Tasks) : Prop :=
  match act with
  | .read i => ∀ src cell entry, s.tasks.get i = some (.arrived src cell) → s.circuits.get cell.cid = some entry →
    entry.Behind src → ∀ j task, s.tasks.get j = some task → task.forwards ≠ some cell.cid
  | _ => True

/-- Under every cid is what the node has there, or the node's entry with the `last_fwd` of a task that is yet to send. -/
def Level (node : Node C) (s : Tasks) (cid : UInt32) : Prop :=
  (s.circuits.get cid = node.circuits.get cid ∧ ∀ i seq effects, s.tasks.get i ≠ some (.sending (some (cid, seq)) effects)) ∨
    ∃ i seq effects entry, s.tasks.get i = some (.sending (some (cid, seq)) effects) ∧ node.circuits.get cid = some entry ∧
      s.circuits.get cid = some (entry.withLastFwd seq)

/-- The tasks that have not ended, with the cells they hold, against the node that has handled all others. -/
structure Agrees (node : Node C) (held : List (Nat × SocketAddr × Cell)) (s : Tasks) : Prop where
  keys : (held.map Prod.fst).Nodup
  stages : ∀ i src cell, (i, src, cell) ∈ held → ∃ task, s.tasks.get i = some task ∧ Stage node src cell task
  ended : ∀ i task, s.tasks.get i = some task → task = .done ∨ i ∈ held.map Prod.fst
  alone : ∀ i j task task' cid, s.tasks.get i = some task → s.tasks.get j = some task' → task.forwards = some cid →
    task'.forwards = some cid → i = j
  level : ∀ cid, Level node s cid

namespace Agrees

variable {node : Node C} {held : List (Nat × SocketAddr × Cell)} {s : Tasks}

theorem start (node : Node C) : Agrees node [] (Tasks.start node.circuits) where
  keys := .nil
  stages _ _ _ member := by cases member
  ended _ _ here := by cases here
  alone _ _ _ _ _ here := by cases here
  level _ := .inl ⟨rfl, fun _ _ _ here => by cases here⟩

theorem held_unique (agrees : Agrees node held s) {i : Nat} {src src' : SocketAddr} {cell cell' : Cell}
    (member : (i, src, cell) ∈ held) (member' : (i, src', cell') ∈ held) : src' = src ∧ cell' = cell := by
  have same := List.inj_on_of_nodup_map agrees.keys member' member rfl
  simpa using same

theorem holds (agrees : Agrees node held s) {i : Nat} {task : Task} (here : s.tasks.get i = some task) (active : task ≠ .done) :
    ∃ src cell, (i, src, cell) ∈ held ∧ Stage node src cell task := by
  rcases agrees.ended i task here with finished | listed
  · exact absurd finished active
  · obtain ⟨⟨i, src, cell⟩, member, rfl⟩ := List.mem_map.mp listed
    obtain ⟨task', there, stage⟩ := agrees.stages i src cell member
    obtain rfl := Option.some.inj (here.symm.trans there)
    exact ⟨src, cell, member, stage⟩

theorem arrive (agrees : Agrees node held s) {i : Nat} (src : SocketAddr) (cell : Cell) (free : s.tasks.get i = none) :
    Agrees node (held ++ [(i, src, cell)]) { s with tasks := s.tasks.insert i (.arrived src cell) } := by
  have unused : i ∉ held.map Prod.fst := by
    intro listed
    obtain ⟨⟨i, src, cell⟩, member, rfl⟩ := List.mem_map.mp listed
    obtain ⟨task, there, -⟩ := agrees.stages i src cell member
    cases free.symm.trans there
  have before {j : Nat} {task : Task} (here : (s.tasks.insert i (.arrived src cell)).get j = some task)
      (new : task ≠ .arrived src cell) : s.tasks.get j = some task := by
    rcases Table.get_insert_some here with ⟨-, rfl⟩ | ⟨-, old⟩
    · exact absurd rfl new
    · exact old
  have after {j : Nat} {task : Task} (here : s.tasks.get j = some task) :
      (s.tasks.insert i (.arrived src cell)).get j = some task := by
    rw [Table.get_insert_of_ne _ _ fun same => ?_, here]
    cases free.symm.trans (same ▸ here)
  refine ⟨?_, fun j src' cell' member => ?_, fun j task here => ?_,
    fun j j' task task' cid here here' fwd fwd' => ?_, fun cid => ?_⟩
  · rw [List.map_append, List.nodup_append]
    refine ⟨agrees.keys, List.nodup_singleton _, fun j member _ last same => unused ?_⟩
    obtain rfl := List.mem_singleton.mp last
    exact same ▸ member
  · rcases List.mem_append.mp member with old | new
    · obtain ⟨task, there, stage⟩ := agrees.stages j src' cell' old
      exact ⟨task, after there, stage⟩
    · cases List.mem_singleton.mp new
      exact ⟨_, Table.get_insert_self .., .arrived⟩
  · rcases Table.get_insert_some here with ⟨rfl, rfl⟩ | ⟨-, old⟩
    · exact .inr (by simp)
    · exact (agrees.ended j task old).imp_right fun listed => by simp [listed]
  · refine agrees.alone j j' task task' cid (before here ?_) (before here' ?_) fwd fwd'
    · rintro rfl
      cases fwd
    · rintro rfl
      cases fwd'
  · rcases agrees.level cid with ⟨same, none⟩ | ⟨j, seq, effects, entry, task, stored, raised⟩
    · exact .inl ⟨same, fun j seq effects here => none j seq effects (before here nofun)⟩
    · exact .inr ⟨j, seq, effects, entry, after task, stored, raised⟩

theorem move (agrees : Agrees node held s) {i : Nat} {src : SocketAddr} {cell : Cell} (member : (i, src, cell) ∈ held)
    {task : Task} (stage : Stage node src cell task)
    (fresh : ∀ cid, task.forwards = some cid →
      ∀ j other, j ≠ i → s.tasks.get j = some other → other.forwards ≠ some cid)
    {t : Tasks} (tasks : t.tasks = s.tasks.insert i task) (level : ∀ cid, Level node t cid) : Agrees node held t := by
  refine ⟨agrees.keys, fun j src' cell' member' => ?_, fun j other here => ?_,
    fun j j' other other' cid here here' fwd fwd' => ?_, level⟩
  · by_cases same : j = i
    · subst same
      obtain ⟨rfl, rfl⟩ := agrees.held_unique member member'
      exact ⟨task, by rw [tasks, Table.get_insert_self], stage⟩
    · obtain ⟨other, there, stage⟩ := agrees.stages j src' cell' member'
      exact ⟨other, by rw [tasks, Table.get_insert_of_ne _ _ same, there], stage⟩
  · rw [tasks] at here
    rcases Table.get_insert_some here with ⟨rfl, rfl⟩ | ⟨-, old⟩
    · exact .inr (List.mem_map.mpr ⟨_, member, rfl⟩)
    · exact agrees.ended j other old
  · rw [tasks] at here here'
    rcases Table.get_insert_some here with ⟨rfl, rfl⟩ | ⟨apart, old⟩ <;>
      rcases Table.get_insert_some here' with ⟨rfl, rfl⟩ | ⟨apart', old'⟩
    · rfl
    · exact absurd fwd' (fresh cid fwd j' other' apart' old')
    · exact absurd fwd (fresh cid fwd' j other apart old)
    · exact agrees.alone j j' other other' cid old old' fwd fwd'

theorem finish {before after : List (Nat × SocketAddr × Cell)} {i : Nat} {src : SocketAddr} {cell : Cell}
    (agrees : Agrees node (before ++ (i, src, cell) :: after) s) {node' : Node C}
    (stages : ∀ j src' cell' task, j ≠ i → s.tasks.get j = some task →
      Stage node src' cell' task → Stage node' src' cell' task)
    {t : Tasks} (tasks : t.tasks = s.tasks.insert i .done) (level : ∀ cid, Level node' t cid) :
    Agrees node' (before ++ after) t := by
  have keys := agrees.keys
  rw [List.map_append, List.map_cons, List.nodup_middle, List.nodup_cons, ← List.map_append] at keys
  obtain ⟨apart, keys⟩ := keys
  refine ⟨keys, fun j src' cell' member => ?_, fun j task here => ?_, fun j j' task task' cid here here' fwd fwd' => ?_, level⟩
  · have other : j ≠ i := by
      rintro rfl
      exact apart (List.mem_map.mpr ⟨_, member, rfl⟩)
    obtain ⟨task, there, stage⟩ := agrees.stages j src' cell' (List.perm_middle.mem_iff.mpr (List.mem_cons_of_mem _ member))
    exact ⟨task, by rw [tasks, Table.get_insert_of_ne _ _ other, there], stages j src' cell' task other there stage⟩
  · rw [tasks] at here
    rcases Table.get_insert_some here with ⟨-, rfl⟩ | ⟨other, old⟩
    · exact .inl rfl
    · refine (agrees.ended j task old).imp_right fun listed => ?_
      rw [List.map_append, List.map_cons, List.perm_middle.mem_iff, ← List.map_append] at listed
      exact (List.mem_cons.mp listed).resolve_left other
  · rw [tasks] at here here'
    rcases Table.get_insert_some here with ⟨-, rfl⟩ | ⟨-, old⟩
    · cases fwd
    rcases Table.get_insert_some here' with ⟨-, rfl⟩ | ⟨-, old'⟩
    · cases fwd'
    exact agrees.alone j j' task task' cid old old' fwd fwd'

theorem level_kept (agrees : Agrees node held s) {i : Nat} {old new : Task} (here : s.tasks.get i = some old)
    (before : ∀ c effects, old ≠ .sending (some c) effects) (now : ∀ c effects, new ≠ .sending (some c) effects) {t : Tasks}
    (circuits : t.circuits = s.circuits) (tasks : t.tasks = s.tasks.insert i new) (cid : UInt32) : Level node t cid := by
  rw [Level, circuits, tasks]
  rcases agrees.level cid with ⟨same, none⟩ | ⟨j, seq, effects, entry, sends, stored, raised⟩
  · refine .inl ⟨same, fun j seq effects there => ?_⟩
    rcases Table.get_insert_some there with ⟨-, held⟩ | ⟨-, sends⟩
    · exact now _ _ held
    · exact none j seq effects sends
  · refine .inr ⟨j, seq, effects, entry, ?_, stored, raised⟩
    rw [Table.get_insert_of_ne _ _ fun same => ?_, sends]
    exact before _ _ (Option.some.inj (here.symm.trans (same ▸ sends)))

/-- The entry under the cid of a cell, read by a task that has no other in its way, is the node's for the purpose of deciding. -/
theorem decides (agrees : Agrees node held s) {src : SocketAddr} {cell : Cell} {copy : CircuitEntry}
    (stored : s.circuits.get cell.cid = some copy)
    (exclusive : copy.Behind src → ∀ j task, s.tasks.get j = some task → task.forwards ≠ some cell.cid) :
    ∃ entry, node.circuits.get cell.cid = some entry ∧
      (∀ msg, relayDecide C copy src msg = relayDecide C entry src msg) ∧ (copy.Behind src → copy = entry) := by
  rcases agrees.level cell.cid with ⟨same, -⟩ | ⟨j, seq, effects, entry, sends, stored', raised⟩
  · exact ⟨copy, same ▸ stored, fun _ => rfl, fun _ => rfl⟩
  · obtain rfl := Option.some.inj (stored.symm.trans raised)
    have beyond : ¬ (entry.withLastFwd seq).Behind src := fun behind => exclusive behind j _ sends rfl
    refine ⟨entry, stored', fun msg => relayDecide_beyond ?_ msg seq, fun behind => absurd behind beyond⟩
    rwa [CircuitEntry.behind_withLastFwd] at beyond

theorem write (agrees : Agrees node held s) {i : Nat} {cid seq : UInt32} {copy : CircuitEntry} {effects : List Effect}
    (here : s.tasks.get i = some (.decided cid copy seq effects)) :
    Agrees node held { s with circuits := writeLastFwd copy s.circuits cid seq,
                              tasks := s.tasks.insert i (.sending (some (cid, seq)) effects),
                              accepted := s.accepted ++ [(cid, seq)] } := by
  obtain ⟨src, cell, member, stage⟩ := agrees.holds here fun same => by cases same
  cases stage with
  | @decided msg entry parsed stored accepted =>
    have alone (j : Nat) (other : Task) (apart : j ≠ i) (there : s.tasks.get j = some other) : other.forwards ≠ some cell.cid :=
      fun fwd => apart (agrees.alone j i other _ cell.cid there here fwd rfl)
    have same : s.circuits.get cell.cid = some copy := by
      rcases agrees.level cell.cid with ⟨same, -⟩ | ⟨j, seq, effects, entry, sends, -⟩
      · exact same.trans stored
      · refine absurd rfl (alone j _ (fun same => ?_) sends)
        cases here.symm.trans (same ▸ sends)
    refine agrees.move member (.written parsed stored accepted) (fun cid fwd j other apart there => ?_) rfl fun c => ?_
    · cases fwd
      exact alone j other apart there
    · by_cases own : c = cell.cid
      · subst own
        refine .inr ⟨i, msg.seq, _, copy, Table.get_insert_self .., stored, ?_⟩
        exact (congrArg (Table.get · cell.cid) (writeLastFwd_same same msg.seq)).trans (Table.get_insert_self ..)
      · have kept : (writeLastFwd copy s.circuits cell.cid msg.seq).get c = s.circuits.get c := by
          rw [writeLastFwd_same same, Table.get_insert_of_ne _ _ own]
        rcases agrees.level c with ⟨same, none⟩ | ⟨j, seq, effects, entry, sends, stored, raised⟩
        · refine .inl ⟨kept.trans same, fun j seq effects there => ?_⟩
          rcases Table.get_insert_some there with ⟨-, sending⟩ | ⟨-, old⟩
          · cases sending
            exact own rfl
          · exact none j seq effects old
        · refine .inr ⟨j, seq, effects, entry, ?_, stored, kept.trans raised⟩
          refine (Table.get_insert_of_ne _ _ fun same => ?_).trans sends
          cases here.symm.trans (same ▸ sends)

theorem send_written {before after : List (Nat × SocketAddr × Cell)} {i : Nat} {src : SocketAddr} {cell : Cell}
    (agrees : Agrees node (before ++ (i, src, cell) :: after) s) {msg : RelayMsg} {entry : CircuitEntry} {effects : List Effect}
    (parsed : parseRelay cell.payload = .ok msg) (stored : node.circuits.get cell.cid = some entry)
    (accepted : (relayDecide C entry src msg).accepted) (here : s.tasks.get i = some (.sending (some (cell.cid, msg.seq)) effects))
    {t : Tasks} (circuits : t.circuits = s.circuits) (tasks : t.tasks = s.tasks.insert i .done) :
    Agrees (node.handleRelay src cell).1 (before ++ after) t := by
  obtain ⟨now, -⟩ := Node.handleRelay_decided src parsed stored
  have alone (j : Nat) (task : Task) (apart : j ≠ i) (there : s.tasks.get j = some task) : task.forwards ≠ some cell.cid :=
    fun fwd => apart (agrees.alone j i task _ cell.cid there here fwd rfl)
  refine agrees.finish (fun j src' cell' task apart there stage => stage.commit parsed stored (alone j task apart there)) tasks
    fun cid => ?_
  rw [Level, circuits, tasks, now, Decision.get_commit stored]
  by_cases own : cid = cell.cid
  · subst own
    rw [if_pos ⟨rfl, accepted⟩]
    refine .inl ⟨?_, fun j seq effects there => ?_⟩
    · rcases agrees.level cell.cid with ⟨-, none⟩ | ⟨j, seq, effects, entry', sends, stored', raised⟩
      · exact absurd here (none i _ _)
      · obtain rfl : j = i := by
          by_contra apart
          exact alone j _ apart sends rfl
        obtain rfl := Option.some.inj (stored.symm.trans stored')
        cases here.symm.trans sends
        exact raised
    · rcases Table.get_insert_some there with ⟨-, ended⟩ | ⟨apart, old⟩
      · cases ended
      · exact alone j _ apart old rfl
  · rw [if_neg fun both => own both.1]
    rcases agrees.level cid with ⟨same, none⟩ | ⟨j, seq, effects, entry, sends, stored, raised⟩
    · refine .inl ⟨same, fun j seq effects there => ?_⟩
      rcases Table.get_insert_some there with ⟨-, ended⟩ | ⟨-, old⟩
      · cases ended
      · exact none j seq effects old
    · refine .inr ⟨j, seq, effects, entry, ?_, stored, raised⟩
      rw [Table.get_insert_of_ne _ _ fun same => ?_, sends]
      cases here.symm.trans (same ▸ sends)
      exact own rfl

theorem send_refused {before after : List (Nat × SocketAddr × Cell)} {i : Nat} {src : SocketAddr} {cell : Cell}
    (agrees : Agrees node (before ++ (i, src, cell) :: after) s) {node' : Node C} (same : node'.circuits = node.circuits)
    {task : Task} (here : s.tasks.get i = some task) (idle : ∀ c effects, task ≠ .sending (some c) effects)
    {t : Tasks} (circuits : t.circuits = s.circuits) (tasks : t.tasks = s.tasks.insert i .done) :
    Agrees node' (before ++ after) t := by
  refine agrees.finish (fun j src' cell' other _ _ stage => stage.congr same) tasks fun cid => ?_
  rw [Level, same]
  exact agrees.level_kept here idle (fun _ _ ended => by cases ended) circuits tasks cid

end Agrees

/-- The cells that have arrived are those whose tasks have ended, which the node has handled in the order of their ends, and
those still held. -/
def Accounted (node : Node C) (arrived : List (SocketAddr × Cell)) (s : Tasks) : Prop :=
  ∃ order held, (order ++ held.map Prod.snd).Perm arrived ∧ s.sent = (node.relayAll order).2 ∧
    Agrees (node.relayAll order).1 held s

def arrivals (acts : List Act) : List (SocketAddr × Cell) :=
  acts.filterMap fun
    | .arrive _ src cell => some (src, cell)
    | _ => none

variable {node : Node C} {arrived : List (SocketAddr × Cell)} {s t : Tasks}

theorem Accounted.end_ {order : List (SocketAddr × Cell)} {before after : List (Nat × SocketAddr × Cell)} {i : Nat}
    {src : SocketAddr} {cell : Cell} (all : (order ++ (before ++ (i, src, cell) :: after).map Prod.snd).Perm arrived)
    (sent : t.sent = (node.relayAll order).2 ++ ((node.relayAll order).1.handleRelay src cell).2)
    (agrees : Agrees ((node.relayAll order).1.handleRelay src cell).1 (before ++ after) t) : Accounted node arrived t := by
  refine ⟨order ++ [(src, cell)], before ++ after, .trans ?_ all, ?_, ?_⟩
  · rw [List.append_assoc, List.singleton_append, List.map_append, List.map_append, List.map_cons]
    exact (List.perm_append_left_iff order).mpr List.perm_middle.symm
  · rw [sent, Node.relayAll_snoc]
  · rwa [Node.relayAll_snoc]

theorem Accounted.step {act : Act} (accounted : Accounted node arrived s) (step : Such (Step C) Exclusive s act t) :
    Accounted node (arrived ++ arrivals [act]) t := by
  obtain ⟨order, held, all, sent, agrees⟩ := accounted
  obtain ⟨step, exclusive⟩ := step
  cases step with
  | @arrive i src cell free =>
    refine ⟨order, held ++ [(i, src, cell)], ?_, sent, agrees.arrive src cell free⟩
    rw [List.map_append, ← List.append_assoc]
    exact all.append_right _
  | @read i src cell here =>
    simp only [arrivals, List.filterMap_cons_none, List.filterMap_nil, List.append_nil]
    obtain ⟨src', cell', member, stage⟩ := agrees.holds here fun same => by cases same
    cases stage
    obtain ⟨before, after, rfl⟩ := List.append_of_mem member
    have idle : ∀ c effects, Task.arrived src cell ≠ .sending (some c) effects := fun _ _ same => by cases same
    unfold readEntry
    cases parsed : parseRelay cell.payload with
    | error | panic =>
      have handled : (node.relayAll order).1.handleRelay src cell = ((node.relayAll order).1, []) := by
        simp only [Node.handleRelay, parsed]
      refine .end_ all ?_ (agrees.send_refused ?_ here idle rfl rfl)
      · rw [handled, List.append_nil, sent]
      · rw [handled]
    | ok msg =>
      cases stored : s.circuits.get cell.cid with
      | none =>
        -- No write that is still to come makes an entry: the node has none either.
        have missing : (node.relayAll order).1.circuits.get cell.cid = none := by
          rcases agrees.level cell.cid with ⟨same, -⟩ | ⟨_, _, _, _, -, -, raised⟩
          · exact same.symm.trans stored
          · cases stored.symm.trans raised
        have handled : (node.relayAll order).1.handleRelay src cell = ((node.relayAll order).1, []) := by
          simp only [Node.handleRelay, parsed, missing]
        refine .end_ all ?_ (agrees.send_refused ?_ here idle rfl rfl)
        · rw [handled, List.append_nil, sent]
        · rw [handled]
      | some copy =>
        have clear := exclusive src cell copy here stored
        obtain ⟨entry, stored', same, whole⟩ := agrees.decides stored clear
        -- Whatever other tasks still have to write, the copy decides as the node's entry does.
        by_cases accepted : (relayDecide C copy src msg).accepted
        · have behind := relayDecide_behind accepted
          obtain rfl := whole behind
          refine ⟨order, _, all, sent, agrees.move member ?_ ?_ rfl (agrees.level_kept here idle ?_ rfl rfl)⟩
          · simp only [if_pos accepted]
            exact .decided parsed stored' accepted
          · simp only [if_pos accepted]
            intro cid fwd j other _ there
            cases fwd
            exact clear behind j other there
          · simp only [if_pos accepted]
            intro _ _ same
            cases same
        -- What is refused changes nothing, so it counts as handled only when it is over.
        · refine ⟨order, _, all, sent, agrees.move member ?_ ?_ rfl (agrees.level_kept here idle ?_ rfl rfl)⟩
          · simp only [if_neg accepted]
            rw [same msg] at accepted ⊢
            exact .refused parsed stored' accepted
          · simp only [if_neg accepted]
            intro _ same
            cases same
          · simp only [if_neg accepted]
            intro _ _ same
            cases same
  | write here =>
    rw [arrivals, List.filterMap_cons_none rfl, List.filterMap_nil, List.append_nil]
    exact ⟨order, held, all, sent, agrees.write here⟩
  | @send i from? effects here =>
    rw [arrivals, List.filterMap_cons_none rfl, List.filterMap_nil, List.append_nil]
    obtain ⟨src, cell, member, stage⟩ := agrees.holds here fun same => by cases same
    obtain ⟨before, after, rfl⟩ := List.append_of_mem member
    cases stage with
    | @written msg entry parsed stored accepted =>
      obtain ⟨-, effects⟩ := Node.handleRelay_decided src parsed stored
      refine .end_ all ?_ (agrees.send_written parsed stored accepted here rfl rfl)
      rw [effects, ← sent]
    | @refused msg entry parsed stored refused =>
      obtain ⟨circuits, effects⟩ := Node.handleRelay_decided src parsed stored
      refine .end_ all ?_ (agrees.send_refused ?_ here (fun _ _ same => by cases same) rfl rfl)
      · rw [effects, ← sent]
      · rw [circuits, Decision.commit, if_neg refused]

/-- `relay::handle` in any number of tasks, whose steps overlap in any order, as long as no two have accepted forward cells of
one circuit at once: when all have ended, circuits and sends are those of one order of uninterrupted calls. -/
theorem serializable {acts : List Act} (run : Run (Such (Step C) Exclusive) (start node.circuits) acts t)
    (ended : ∀ i task, t.tasks.get i = some task → task = .done) :
    ∃ order, order.Perm (arrivals acts) ∧ t.circuits = (node.relayAll order).1.circuits ∧ t.sent = (node.relayAll order).2 := by
  have accounted : Accounted node (arrivals acts) t := by
    clear ended
    induction run with
    | nil => exact ⟨[], [], .nil, rfl, .start node⟩
    | snoc _ last ih =>
      rw [arrivals, List.filterMap_append]
      exact ih.step last
  obtain ⟨order, held, all, sent, agrees⟩ := accounted
  -- A task that still holds a cell has not ended.
  obtain rfl : held = [] := by
    refine List.eq_nil_iff_forall_not_mem.mpr fun ⟨i, src, cell⟩ member => ?_
    obtain ⟨task, here, stage⟩ := agrees.stages i src cell member
    cases ended i task here
    cases stage
  refine ⟨order, by simpa using all, ?_, sent⟩
  funext cid
  rcases agrees.level cid with ⟨same, -⟩ | ⟨i, _, _, _, sends, -⟩
  · exact same
  · cases ended i _ sends

end Tasks

namespace Transparent

open Nbf.Crypto.Transparent

def loneNode : Node crates := { node 1 0 with circuits := loneTable }

theorem readEntry_again : readEntry crates (writeLastFwd loneTerminal loneTable 1 100) (localhost 9200) loneEcho =
    .sending none [] := by
  have stored : (writeLastFwd loneTerminal loneTable 1 100).get 1 = some (loneTerminal.withLastFwd 100) :=
    (congrArg (Table.get · 1) (writeLastFwd_same (Table.get_insert_self ..) 100)).trans (Table.get_insert_self ..)
  have replayed : localhost 9200 ≠ localhost 9200 ∨ (100 : UInt32) ≤ 100 := .inr (by decide)
  have dropped (onion : List UInt8) : relayDecide crates (loneTerminal.withLastFwd 100) (localhost 9200) ⟨100, .echo, 0, onion⟩ =
      .drop := by
    simp only [loneTerminal, CircuitEntry.withLastFwd, relayDecide, if_pos replayed]
  simp only [readEntry, loneEcho, parseRelay_relayPayload, stored, dropped]
  rfl

theorem copies_serialized : ∃ (acts : List Act) (t : Tasks) (order : List (SocketAddr × Cell)),
    Run (Tasks.Step crates) (Tasks.start loneTable) acts t ∧ order.Perm (Tasks.arrivals acts) ∧
      t.circuits = (loneNode.relayAll order).1.circuits ∧ t.sent = (loneNode.relayAll order).2 ∧ t.forwarded = [(1, 100)] := by
  obtain ⟨reply, decided⟩ := readEntry_loneEcho
  have kept {tasks : Table Nat Task} {a b c : Task} : (((tasks.insert 1 a).insert 0 b).insert 0 c).get 1 = some a := by
    rw [Table.get_insert_of_ne _ _ (by decide), Table.get_insert_of_ne _ _ (by decide), Table.get_insert_self]
  have first : Run (Such (Tasks.Step crates) Tasks.Exclusive) (Tasks.start loneNode.circuits)
      [.arrive 0 (localhost 9200) loneEcho, .read 0] _ :=
    (Run.single ⟨.arrive _ _ rfl, trivial⟩).snoc ⟨.read (Table.get_insert_self ..), fun _ _ _ _ _ _ j task there => by
      rcases Table.get_insert_some there with ⟨-, rfl⟩ | ⟨-, none⟩
      · nofun
      · cases none⟩
  have second := first.snoc ⟨.arrive (i := 1) (localhost 9200) loneEcho rfl, trivial⟩
  have written := second.snoc ⟨.write (i := 0) (congrArg some decided), trivial⟩
  have sent := written.snoc ⟨.send (Table.get_insert_self ..), trivial⟩
  have again := sent.snoc ⟨.read kept, fun _ _ _ _ _ _ j task there => by
    rcases Table.get_insert_some there with ⟨-, rfl⟩ | ⟨near, there⟩
    · nofun
    rw [Table.get_insert_of_ne _ _ near] at there
    rcases Table.get_insert_some there with ⟨-, rfl⟩ | ⟨-, there⟩
    · nofun
    · simp [Tasks.start, near] at there⟩
  have last := again.snoc ⟨.send ((Table.get_insert_self ..).trans (congrArg some readEntry_again)), trivial⟩
  obtain ⟨order, perm, circuits, sends⟩ := Tasks.serializable last fun i task here => by
    rcases Table.get_insert_some here with ⟨-, rfl⟩ | ⟨far, here⟩
    · rfl
    rw [Table.get_insert_of_ne _ _ far] at here
    rcases Table.get_insert_some here with ⟨-, rfl⟩ | ⟨near, here⟩
    · rfl
    · simp [Tasks.start, near, far] at here
  exact ⟨_, _, order, last.forget, perm, circuits, sends, rfl⟩

end Transparent
end Nbf.Net

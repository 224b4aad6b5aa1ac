import Nbf.Dht.Answers
import Nbf.Dht.Routing

/-! What a step of the DHT node changes: of its tables, and of its tasks. -/

set_option autoImplicit false

namespace Nbf.Dht

open Nbf.Library Nbf.Crypto Nbf.Net

def Event.task? : Event → Option Nat
  | .receive _ _ => none
  | .start i _ => some i
  | .advance i => some i
  | .call i => some i
  | .fail i => some i
  | .expire i => some i

namespace DhtNode

variable {C : Crates} {s t : DhtNode} {event : Event}

/-- Nothing of the tables has changed but who waits for replies. -/
def SameTables (s t : DhtNode) : Prop := t.kad = { s.kad with pending := t.kad.pending }

theorem SameTables.of_eq (same : t.kad = s.kad) : s.SameTables t := by
  unfold SameTables
  rw [same]

theorem SameTables.rt (same : s.SameTables t) : t.kad.rt = s.kad.rt := by rw [same]

theorem SameTables.store (same : s.SameTables t) : t.kad.store = s.kad.store := by rw [same]

theorem openAt_same (s : DhtNode) (addr : SocketAddr) : s.SameTables (s.openAt addr) := by
  unfold SameTables openAt
  simp

@[simp] theorem tasks_openAt (s : DhtNode) (addr : SocketAddr) : (s.openAt addr).tasks = s.tasks := (s.openAt_kept addr).2.1

theorem receive_tables (s : DhtNode) (src : SocketAddr) (data : List UInt8) :
    ((∀ desc, rpcDecode C (recvFrom data) ≠ .ok (.store desc)) ∧ s.SameTables (s.receive C src data)) ∨
      ∃ desc, rpcDecode C (recvFrom data) = .ok (.store desc) ∧
        s.receive C src data = { s with kad := (s.kad.handle src (.store desc)).1 } := by
  generalize received : s.receive C src data = t
  have move : Receive C s src data t := received ▸ receive_cases C s src data
  cases move with
  | dropped none => exact .inl ⟨fun desc => none _, rfl⟩
  | reply decoded reply _ | unasked decoded reply _ =>
    refine .inl ⟨fun desc store => ?_, rfl⟩
    rw [Checked.ok.inj (decoded.symm.trans store)] at reply
    cases reply
  | ping decoded | find decoded => exact .inl ⟨fun desc => by simp [decoded], rfl⟩
  | @store desc decoded => exact .inr ⟨desc, decoded, rfl⟩

theorem advance_tables {i : Nat} {task : Task} (step : s.advance i task = some t) :
    ((∀ contacts resume, task ≠ .merging contacts resume) ∧ s.SameTables t) ∨
      ∃ contacts resume, task = .merging contacts resume ∧ t.kad = s.kad.tryMerge contacts := by
  obtain ⟨u, next, move, rfl⟩ := advance_cases step
  cases move with
  | @merging contacts resume => exact .inr ⟨contacts, resume, rfl, rfl⟩
  | _ => exact .inl ⟨nofun, rfl⟩

inductive Change (C : Crates) (s : DhtNode) : Event → DhtNode → Prop where
  | none {event : Event} {t : DhtNode} :
      (∀ src data, event = .receive src data → ∀ desc, rpcDecode C (recvFrom data) ≠ .ok (.store desc)) → s.SameTables t →
      Change C s event t
  | stored {src : SocketAddr} {data : List UInt8} {desc : Descriptor} :
      rpcDecode C (recvFrom data) = .ok (.store desc) →
      Change C s (.receive src data) { s with kad := (s.kad.handle src (.store desc)).1 }
  | merged {i : Nat} {contacts : List Contact} {resume : Resume} {t : DhtNode} :
      s.tasks.get i = some (.merging contacts resume) → t.kad = s.kad.tryMerge contacts →
      Change C s (.advance i) t

theorem Step.change (step : Step C s event t) : Change C s event t := by
  cases step with
  | receive src data =>
    rcases s.receive_tables (C := C) src data with ⟨other, same⟩ | ⟨desc, decoded, kept⟩
    · exact .none (fun _ _ here => by cases here; exact other) same
    · rw [kept]
      exact .stored decoded
  | start => exact .none nofun (.of_eq rfl)
  | advance here step =>
    rcases advance_tables step with ⟨-, same⟩ | ⟨contacts, resume, rfl, merged⟩
    · exact .none nofun same
    · exact .merged here merged
  | call => exact .none nofun (s.openAt_same _)
  | fail => exact .none nofun (s.openAt_same _)
  | expire => exact .none nofun rfl

theorem Step.id_ownDesc (step : Step C s event t) : t.kad.id = s.kad.id ∧ t.kad.ownDesc = s.kad.ownDesc := by
  cases step.change with
  | none _ same =>
    rw [same]
    exact ⟨rfl, rfl⟩
  | stored => exact ⟨rfl, rfl⟩
  | merged _ merged =>
    rw [merged]
    exact ⟨rfl, rfl⟩

/-- Every table of a run is one that `try_merge` leaves. -/
theorem Step.arranged (step : Step C s event t) (arranged : s.kad.Arranged) : t.kad.Arranged := by
  cases step.change with
  | none _ same =>
    rw [same]
    exact ⟨arranged.named, arranged.own, arranged.ascending, arranged.short⟩
  | @stored src data desc _ =>
    have before : { s.kad with store := s.kad.store.insert desc.nodeId desc }.Arranged :=
      ⟨arranged.named, arranged.own, arranged.ascending, arranged.short⟩
    exact before.tryMerge _
  | merged _ merged =>
    rw [merged]
    exact arranged.tryMerge _

theorem arranged_spawn {identity : NodeIdentity C} {ownDesc : Descriptor} (signed : Descriptor.SignedBy identity ownDesc) :
    (spawn identity ownDesc []).kad.Arranged :=
  ⟨signed.fields.1, List.mem_singleton_self _, List.pairwise_singleton _ _, by simp [spawn, Kademlia.new]⟩

theorem advance_tasks {i : Nat} {task : Task} (step : s.advance i task = some t) :
    ∃ next, t.tasks = s.tasks.insert i next := by
  obtain ⟨u, next, move, rfl⟩ := advance_cases step
  cases move with
  | expired => exact ⟨_, congrArg (Table.insert · i _) (s.tasks_removeAt _)⟩
  | _ => exact ⟨_, rfl⟩

@[simp] theorem nextTx_closeAt (s : DhtNode) (addr : SocketAddr) : (s.closeAt addr).nextTx = s.nextTx := by
  unfold closeAt
  split <;> rfl

theorem openAt_empty (s : DhtNode) (addr : SocketAddr) : (s.openAt addr).channels.get s.nextTx = some .empty := by
  simp [openAt]

@[simp] theorem sent_closeAt (s : DhtNode) (addr : SocketAddr) : (s.closeAt addr).sent = s.sent := by
  unfold closeAt
  split <;> rfl

@[simp] theorem sent_openAt (s : DhtNode) (addr : SocketAddr) : (s.openAt addr).sent = s.sent := by
  simp [openAt]

theorem advance_sent {i : Nat} {task : Task} (step : s.advance i task = some t) : t.sent = s.sent := by
  obtain ⟨u, next, move, rfl⟩ := advance_cases step
  cases move with
  | expired => exact s.sent_closeAt _
  | _ => rfl

theorem receive_tasks (s : DhtNode) (src : SocketAddr) (data : List UInt8) : (s.receive C src data).tasks = s.tasks :=
  (s.receive_kept src data).2.1

theorem Step.other_task (step : Step C s event t) {i : Nat} (other : event.task? ≠ some i) : t.tasks.get i = s.tasks.get i := by
  cases step with
  | receive src data => rw [receive_tasks]
  | start _ _ => exact Table.get_insert_of_ne _ _ fun same => other (congrArg some same.symm)
  | advance here step =>
    obtain ⟨next, moved⟩ := advance_tasks step
    rw [moved]
    exact Table.get_insert_of_ne _ _ fun same => other (congrArg some same.symm)
  | call here _ =>
    refine (Table.get_insert_of_ne _ _ fun same => other (congrArg some same.symm)).trans ?_
    exact congrArg (Table.get · i) (s.tasks_openAt _)
  | fail here _ =>
    refine (Table.get_insert_of_ne _ _ fun same => other (congrArg some same.symm)).trans ?_
    exact congrArg (Table.get · i) (s.tasks_openAt _)
  | expire => exact Table.get_insert_of_ne _ _ fun same => other (congrArg some same.symm)

end DhtNode

/-! What tasks ask for. -/

def RpcMsg.IsRequest : RpcMsg → Prop
  | .ping _ | .store _ | .find _ _ => True
  | .pong _ | .found _ _ => False

theorem RpcMsg.IsRequest.not_found {msg : RpcMsg} (request : msg.IsRequest) : msg.type ≠ .found := by
  cases msg with
  | ping | store | find => nofun
  | pong | found => exact request.elim

def Resume.Requests : Resume → Prop
  | .lookup _ _ => True
  | .calls msg todo => msg.IsRequest ∧ ∀ call ∈ todo, call.2.IsRequest

def Task.Requests : Task → Prop
  | .calls todo => ∀ call ∈ todo, call.2.IsRequest
  | .waiting _ _ resume => resume.Requests
  | .expired _ resume => resume.Requests
  | .merging _ resume => resume.Requests
  | _ => True

theorem Task.Initial.requests {kad : Kademlia} {task : Task} (initial : task.Initial kad) : task.Requests := by
  cases initial with
  | lookup | lookupRoute => trivial
  | bootstrap seeds =>
    intro call member
    rcases List.mem_append.mp member with first | second
    · obtain ⟨⟨seed, nonce⟩, -, calls⟩ := List.mem_flatMap.mp first
      rcases List.mem_cons.mp calls with rfl | calls
      · trivial
      · rw [List.mem_singleton.mp calls]
        trivial
    · obtain ⟨⟨seed, nonce⟩, -, rfl⟩ := List.mem_map.mp second
      trivial

theorem Resume.Requests.task {resume : Resume} (requests : resume.Requests) : resume.task.Requests := by
  cases resume with
  | lookup => trivial
  | calls msg todo => exact requests.2

theorem Resume.Requests.reply {resume : Resume} (requests : resume.Requests) (reply? : Option RpcMsg) :
    (resume.reply reply?).Requests := by
  unfold Resume.reply
  split
  · split
    · trivial
    · trivial
  · exact requests
  · exact requests.task

theorem Lookup.enter_requests (caller : Caller) (l : Lookup) : (Lookup.enter caller l).Requests := by
  unfold Lookup.enter
  split <;> trivial

theorem Task.Requests.call {task : Task} (requests : task.Requests) {addr : SocketAddr} {msg : RpcMsg} {resume : Resume}
    (asks : task.call? = some (addr, msg, resume)) : msg.IsRequest ∧ resume.Requests := by
  unfold Task.call? at asks
  split at asks
  · split at asks
    · cases asks
    · cases asks
      exact ⟨trivial, trivial⟩
  · cases asks
    have first := requests _ List.mem_cons_self
    exact ⟨first, first, fun call member => requests call (List.mem_cons_of_mem _ member)⟩
  · cases asks

namespace DhtNode

variable {C : Crates} {s t : DhtNode} {event : Event}

def Requests (s : DhtNode) : Prop := ∀ i task, s.tasks.get i = some task → task.Requests

theorem Requests.insert (requests : s.Requests) {i : Nat} {task : Task} (new : task.Requests)
    (put : t.tasks = s.tasks.insert i task) : t.Requests := by
  intro j task' here
  rw [put] at here
  rcases Table.get_insert_some here with ⟨-, rfl⟩ | ⟨-, old⟩
  · exact new
  · exact requests j task' old

theorem advance_requests {i : Nat} {task : Task} (requests : task.Requests) (step : s.advance i task = some t) :
    ∃ next, t.tasks = s.tasks.insert i next ∧ next.Requests := by
  obtain ⟨u, next, move, rfl⟩ := advance_cases step
  cases move with
  | merging => exact ⟨_, rfl, Resume.Requests.task requests⟩
  | got | closed => exact ⟨_, rfl, Resume.Requests.reply requests _⟩
  | expired => exact ⟨_, congrArg (Table.insert · i _) (s.tasks_removeAt _), Resume.Requests.reply requests _⟩
  | start | round => exact ⟨_, rfl, Lookup.enter_requests ..⟩
  | _ => exact ⟨_, rfl, trivial⟩

theorem Step.requests (step : Step C s event t) (requests : s.Requests) : t.Requests := by
  cases step with
  | receive src data =>
    intro i task here
    rw [receive_tasks] at here
    exact requests i task here
  | start _ initial => exact requests.insert initial.requests rfl
  | advance here step =>
    obtain ⟨next, put, new⟩ := advance_requests (requests _ _ here) step
    exact requests.insert new put
  | @call i task addr msg resume here asks =>
    have calling := (requests _ _ here).call asks
    have waits : Task.Requests (.waiting addr s.nextTx resume) := calling.2
    exact requests.insert waits (congrArg (Table.insert · _ _) (s.tasks_openAt _))
  | fail here asks =>
    have calling := (requests _ _ here).call asks
    exact requests.insert (calling.2.reply none) (congrArg (Table.insert · _ _) (s.tasks_openAt _))
  | @expire i addr rx resume here _ =>
    have waits : Task.Requests (.waiting addr rx resume) := requests _ _ here
    have ended : Task.Requests (.expired addr resume) := waits
    exact requests.insert ended rfl

end DhtNode

namespace Transparent

open Nbf.Crypto.Transparent

def alone : DhtNode := .spawn (identity 1) (descriptor 1 9100) []

def own : Contact := Contact.fromDesc (descriptor 1 9100)

theorem alone_learns : ∃ data, rpcDecode crates (recvFrom data) = .ok (.store (descriptor 20 9101)) ∧
    (alone.receive crates known.addr data).kad.rt = [own, known] ∧
    (alone.receive crates known.addr data).kad.store.get (identity 20).nodeId = some (descriptor 20 9101) := by
  obtain ⟨data, -, decoded⟩ := rpcDecode_recvFrom (by decide) (rpcDecode_store ((descriptor_signed 20 9101).verified lawful))
  have merged : [known].foldl (Kademlia.mergeOne (identity 1).nodeId) [own] = [own, known] := by decide
  have near : dist own.nodeId (identity 1).nodeId ≤ dist known.nodeId (identity 1).nodeId := by decide
  have table : (alone.receive crates known.addr data).kad.rt =
      (sortByDist (identity 1).nodeId ([known].foldl (Kademlia.mergeOne (identity 1).nodeId) [own])).take 64 := by
    simp only [DhtNode.receive, decoded]
    rfl
  refine ⟨data, decoded, table.trans (by rw [merged, sortByDist_pair, if_pos near]; rfl), ?_⟩
  simp only [DhtNode.receive, decoded]
  exact Table.get_insert_self ..

end Transparent
end Nbf.Dht

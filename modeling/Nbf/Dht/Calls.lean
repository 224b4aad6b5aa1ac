import Nbf.Dht.Steps

/-! Which call a reply goes to. A call waits in the slot of the address it has
called; its request is known from what it resumes with. -/

set_option autoImplicit false

namespace Nbf.Dht

open Nbf.Library Nbf.Crypto Nbf.Net

def Resume.request : Resume → RpcMsg
  | .lookup _ l => .find l.key l.wantValue
  | .calls msg _ => msg

/-- The reply to a PING has its nonce; a FOUND, which names no request, is the reply to the call it was sent
for. A STORE has no reply. -/
def Answers (sentFor : Option ReplyTx) (rx : ReplyTx) (request msg : RpcMsg) : Prop :=
  match request, msg with
  | .ping nonce, .pong nonce' => nonce' = nonce
  | .find _ _, .found _ _ => sentFor = some rx
  | _, _ => False

/-- A node, and for every channel with a reply the call that this reply was sent for. -/
abbrev Answering := DhtNode × Table ReplyTx (Option ReplyTx)

abbrev Sending := Event × Option ReplyTx

def sources (C : Crates) (a : Answering) (label : Sending) : Table ReplyTx (Option ReplyTx) :=
  match label.1 with
  | .receive src data =>
    match rpcDecode C (recvFrom data), a.1.kad.pending.get src with
    | .ok msg, some tx => if msg.isReply then a.2.insert tx label.2 else a.2
    | _, _ => a.2
  | _ => a.2

def CallStep (C : Crates) (a : Answering) (label : Sending) (b : Answering) : Prop :=
  DhtNode.Step C a.1 label.1 b.1 ∧ b.2 = sources C a label

/-- A call has its slot and nothing yet, or the reply to its own request. -/
def Served (a : Answering) (addr : SocketAddr) (rx : ReplyTx) (request : RpcMsg) : Prop :=
  (a.1.channels.get rx = some .empty ∧ a.1.kad.pending.get addr = some rx) ∨
    ∃ msg sentFor, a.1.channels.get rx = some (.got msg) ∧ a.2.get rx = some sentFor ∧ Answers sentFor rx request msg

/-- Every call that waits will get the reply to its own request if it comes, and no other. -/
def Matched (a : Answering) : Prop :=
  ∀ i addr rx resume, a.1.tasks.get i = some (.waiting addr rx resume) → Served a addr rx resume.request

/-- No call waits in the slot of this address. What is left there by a call that is over may still be in it. -/
def DhtNode.Free (s : DhtNode) (addr : SocketAddr) : Prop :=
  ∀ i addr' rx resume, s.tasks.get i = some (.waiting addr' rx resume) → s.kad.pending.get addr ≠ some rx

/-- A call that begins, and one that clears its slot after its time is up, find no other waiting there, and a FOUND
or PONG that comes from an address in whose slot a call waits answers this call. -/
def Fits (C : Crates) (before : Answering) (label : Sending) (_ : Answering) : Prop :=
  match label.1 with
  | .receive src data => ∀ msg, rpcDecode C (recvFrom data) = .ok msg → msg.isReply → ∀ i addr rx resume,
    before.1.tasks.get i = some (.waiting addr rx resume) → before.1.kad.pending.get src = some rx →
    Answers label.2 rx resume.request msg
  | .call i | .fail i => ∀ task addr msg resume, before.1.tasks.get i = some task → task.call? = some (addr, msg, resume) →
    before.1.Free addr
  | .advance i => ∀ addr resume, before.1.tasks.get i = some (.expired addr resume) → before.1.Free addr
  | _ => True

namespace DhtNode

variable {C : Crates} {s t : DhtNode}

/-! Slots and channels. -/

/-- Slots hold the open ends of channels that nothing has come through, each at one address. -/
structure Slots (s : DhtNode) : Prop where
  empty : ∀ addr tx, s.kad.pending.get addr = some tx → tx < s.nextTx ∧ s.channels.get tx = some .empty
  single : ∀ addr addr' tx, s.kad.pending.get addr = some tx → s.kad.pending.get addr' = some tx → addr' = addr
  below : ∀ i addr rx resume, s.tasks.get i = some (.waiting addr rx resume) → rx < s.nextTx

theorem channels_closeAt (s : DhtNode) (addr : SocketAddr) (rx : ReplyTx) :
    (s.closeAt addr).channels.get rx = if s.kad.pending.get addr = some rx then some .closed else s.channels.get rx := by
  unfold closeAt
  split
  next tx here => simp [here, Table.get_insert, eq_comm]
  next none => simp [none]

theorem channels_openAt (s : DhtNode) (addr : SocketAddr) (rx : ReplyTx) : (s.openAt addr).channels.get rx =
    if rx = s.nextTx then some .empty else if s.kad.pending.get addr = some rx then some .closed else s.channels.get rx := by
  simp only [openAt, nextTx_closeAt, Table.get_insert, channels_closeAt]

theorem channels_removeAt (s : DhtNode) (addr : SocketAddr) (rx : ReplyTx) :
    (s.removeAt addr).channels.get rx = if s.kad.pending.get addr = some rx then some .closed else s.channels.get rx :=
  s.channels_closeAt addr rx

theorem pending_openAt (s : DhtNode) (addr : SocketAddr) :
    (s.openAt addr).kad.pending = s.kad.pending.insert addr s.nextTx := by
  simp [openAt]

theorem nextTx_openAt (s : DhtNode) (addr : SocketAddr) : (s.openAt addr).nextTx = s.nextTx + 1 := by
  simp [openAt]

theorem Slots.openAt (slots : s.Slots) (addr : SocketAddr) : (s.openAt addr).Slots := by
  have fresh : ∀ addr', s.kad.pending.get addr' ≠ some s.nextTx := fun addr' old => Nat.lt_irrefl _ (slots.empty addr' _ old).1
  refine ⟨fun addr' tx here => ?_, ?_, fun i addr' rx resume here => ?_⟩
  · rw [pending_openAt] at here
    rw [nextTx_openAt, channels_openAt]
    rcases Table.get_insert_some here with ⟨-, rfl⟩ | ⟨other, old⟩
    · exact ⟨Nat.lt_succ_self _, if_pos rfl⟩
    · obtain ⟨less, empty⟩ := slots.empty addr' tx old
      refine ⟨Nat.lt_succ_of_lt less, ?_⟩
      rw [if_neg (Nat.ne_of_lt less), if_neg fun same => other (slots.single addr addr' tx same old)]
      exact empty
  · rw [pending_openAt]
    exact Table.single_insert fresh slots.single
  · rw [tasks_openAt] at here
    rw [nextTx_openAt]
    exact Nat.lt_succ_of_lt (slots.below i addr' rx resume here)

theorem Slots.shrink (slots : s.Slots) (next : t.nextTx = s.nextTx)
    (kept : ∀ addr tx, t.kad.pending.get addr = some tx →
      s.kad.pending.get addr = some tx ∧ t.channels.get tx = s.channels.get tx)
    (waits : ∀ i addr rx resume, t.tasks.get i = some (.waiting addr rx resume) →
      s.tasks.get i = some (.waiting addr rx resume)) : t.Slots := by
  refine ⟨fun addr tx here => ?_, fun first second tx one two => ?_, fun i addr rx resume here => ?_⟩
  · obtain ⟨old, same⟩ := kept addr tx here
    rw [next, same]
    exact slots.empty addr tx old
  · exact slots.single first second tx (kept _ _ one).1 (kept _ _ two).1
  · rw [next]
    exact slots.below i addr rx resume (waits _ _ _ _ here)

end DhtNode

/-! What waits after a step. -/

def Task.waits : Task → Bool
  | .waiting _ _ _ => true
  | _ => false

theorem Task.Initial.waits {kad : Kademlia} {task : Task} (initial : task.Initial kad) : task.waits = false := by
  cases initial <;> rfl

theorem Lookup.enter_waits (caller : Caller) (l : Lookup) : (Lookup.enter caller l).waits = false := by
  unfold Lookup.enter
  split <;> rfl

theorem Resume.task_waits (resume : Resume) : resume.task.waits = false := by cases resume <;> rfl

theorem Resume.reply_waits (resume : Resume) (reply? : Option RpcMsg) : (resume.reply reply?).waits = false := by
  unfold Resume.reply
  split
  · split <;> rfl
  · rfl
  · exact resume.task_waits

namespace DhtNode

variable {C : Crates} {s t : DhtNode}

theorem waits_before {tasks : Table Nat Task} {i j : Nat} {next : Task} (still : next.waits = false) {addr : SocketAddr}
    {rx : ReplyTx} {resume : Resume} (here : (tasks.insert i next).get j = some (.waiting addr rx resume)) :
    j ≠ i ∧ tasks.get j = some (.waiting addr rx resume) := by
  rcases Table.get_insert_some here with ⟨-, rfl⟩ | before
  · cases still
  · exact before

theorem advance_slots {i : Nat} {task : Task} (step : s.advance i task = some t) :
    (∃ addr resume, task = .expired addr resume ∧ t = (s.removeAt addr).put i (resume.reply none)) ∨
      (∀ addr resume, task ≠ .expired addr resume) ∧ t.kad.pending = s.kad.pending ∧ t.channels = s.channels ∧
        t.nextTx = s.nextTx ∧ ∃ next, t.tasks = s.tasks.insert i next ∧ next.waits = false := by
  obtain ⟨u, next, move, rfl⟩ := advance_cases step
  cases move with
  | expired => exact .inl ⟨_, _, rfl, rfl⟩
  | @merging contacts resume => exact .inr ⟨nofun, rfl, rfl, rfl, _, rfl, resume.task_waits⟩
  | @got addr rx resume msg _ => exact .inr ⟨nofun, rfl, rfl, rfl, _, rfl, resume.reply_waits _⟩
  | @closed addr rx resume _ => exact .inr ⟨nofun, rfl, rfl, rfl, _, rfl, resume.reply_waits _⟩
  | start | round => exact .inr ⟨nofun, rfl, rfl, rfl, _, rfl, Lookup.enter_waits ..⟩
  | _ => exact .inr ⟨nofun, rfl, rfl, rfl, _, rfl, rfl⟩

theorem receive_reply {src : SocketAddr} {data : List UInt8} {msg : RpcMsg} {tx : ReplyTx}
    (decoded : rpcDecode C (recvFrom data) = .ok msg) (reply : msg.isReply) (slot : s.kad.pending.get src = some tx) :
    s.receive C src data = s.deliver src tx msg := by
  cases msg with
  | ping | store | find => cases reply
  | pong nonce => simp only [receive, decoded, slot, deliver]
  | found contacts value => simp only [receive, decoded, slot, deliver]

theorem receive_other (src : SocketAddr) (data : List UInt8)
    (other : ∀ msg tx, rpcDecode C (recvFrom data) = .ok msg → msg.isReply → s.kad.pending.get src ≠ some tx) :
    (s.receive C src data).kad.pending = s.kad.pending ∧ (s.receive C src data).channels = s.channels ∧
      (s.receive C src data).nextTx = s.nextTx := by
  generalize received : s.receive C src data = t
  have move : Receive C s src data t := received ▸ receive_cases C s src data
  cases move with
  | reply decoded reply slot => exact absurd slot (other _ _ decoded reply)
  | dropped | unasked | ping | store | find => exact ⟨rfl, rfl, rfl⟩

theorem Slots.of_sent (slots : s.Slots) (sent : List (SocketAddr × List UInt8)) : Slots { s with sent } :=
  ⟨slots.empty, slots.single, slots.below⟩

theorem Slots.waits (i : Nat) (addr : SocketAddr) (resume : Resume) (next : t.nextTx = s.nextTx + 1) (opened : t.Slots) :
    (t.put i (.waiting addr s.nextTx resume)).Slots := by
  refine ⟨opened.empty, opened.single, fun j addr' rx resume' waits => ?_⟩
  rcases Table.get_insert_some waits with ⟨-, same⟩ | ⟨-, before⟩
  · cases same
    exact lt_of_lt_of_eq (Nat.lt_succ_self _) next.symm
  · exact opened.below j addr' rx resume' before

theorem Slots.step {event : Event} (step : Step C s event t) (slots : s.Slots) : t.Slots := by
  cases step with
  | receive src data =>
    by_cases reply : ∃ msg tx, rpcDecode C (recvFrom data) = .ok msg ∧ msg.isReply ∧ s.kad.pending.get src = some tx
    · obtain ⟨msg, tx, decoded, reply, slot⟩ := reply
      rw [receive_reply decoded reply slot]
      refine slots.shrink rfl (fun addr tx' here => ?_) fun _ _ _ _ here => here
      have old := Table.get_remove_some here
      refine ⟨old, Table.get_insert_of_ne _ _ ?_⟩
      rintro rfl
      exact Table.ne_of_get_remove here (slots.single src addr tx' slot old)
    · obtain ⟨pending, channels, nextTx⟩ := receive_other (C := C) (s := s) src data
        fun msg tx decoded isReply slot => reply ⟨msg, tx, decoded, isReply, slot⟩
      refine slots.shrink nextTx (fun addr tx here => ⟨pending ▸ here, congrArg (Table.get · tx) channels⟩)
        fun i addr rx resume here => ?_
      rwa [receive_tasks] at here
  | start _ initial =>
    exact slots.shrink rfl (fun _ _ here => ⟨here, rfl⟩) fun _ _ _ _ here => (waits_before initial.waits here).2
  | advance here step =>
    rcases advance_slots step with ⟨addr, resume, rfl, rfl⟩ | ⟨-, pending, channels, nextTx, next, tasks, still⟩
    · refine slots.shrink (s.nextTx_closeAt addr) (fun addr' tx left => ?_) fun j addr' rx' resume' waits => ?_
      · have old := Table.get_remove_some left
        refine ⟨old, (s.channels_removeAt addr tx).trans (if_neg fun closed => ?_)⟩
        exact Table.ne_of_get_remove left (slots.single addr addr' tx closed old)
      · obtain ⟨-, before⟩ := waits_before (resume.reply_waits none) waits
        rwa [tasks_removeAt] at before
    · refine slots.shrink nextTx (fun addr tx here => ⟨pending ▸ here, congrArg (Table.get · tx) channels⟩)
        fun i addr rx resume here => ?_
      rw [tasks] at here
      exact (waits_before still here).2
  | @call i task addr msg resume here asks =>
    have opened : Slots { s.openAt addr with sent := s.sent ++ Kademlia.sendRaw addr msg } := (slots.openAt addr).of_sent _
    exact .waits i addr resume (s.nextTx_openAt addr) opened
  | @fail i task addr msg resume here asks =>
    exact (slots.openAt addr).shrink rfl (fun _ _ here => ⟨here, rfl⟩) fun _ _ _ _ waits =>
      (waits_before (resume.reply_waits none) waits).2
  | expire =>
    exact slots.shrink rfl (fun _ _ here => ⟨here, rfl⟩) fun _ _ _ _ waits => (waits_before rfl waits).2

/-! Matching. -/

variable {sourced : Table ReplyTx (Option ReplyTx)}

theorem Served.of_same {addr : SocketAddr} {rx : ReplyTx} {request : RpcMsg} (served : Served (s, sourced) addr rx request)
    (channel : t.channels.get rx = s.channels.get rx) (slot : t.kad.pending.get addr = s.kad.pending.get addr) :
    Served (t, sourced) addr rx request := by
  unfold Served at served ⊢
  dsimp only at served ⊢
  rwa [channel, slot]

/-- The sender in the slot of `addr` is gone; other slots, and what other calls wait on, are as they were. -/
structure Displaced (s : DhtNode) (addr : SocketAddr) (t : DhtNode) : Prop where
  lost : ∀ rx < s.nextTx, s.kad.pending.get addr = some rx → t.channels.get rx = some .closed
  channels : ∀ rx < s.nextTx, s.kad.pending.get addr ≠ some rx → t.channels.get rx = s.channels.get rx
  slots : ∀ other, other ≠ addr → t.kad.pending.get other = s.kad.pending.get other

theorem displaced_openAt (s : DhtNode) (addr : SocketAddr) : s.Displaced addr (s.openAt addr) where
  lost rx old taken := by rw [channels_openAt, if_neg (Nat.ne_of_lt old), if_pos taken]
  channels rx old free := by rw [channels_openAt, if_neg (Nat.ne_of_lt old), if_neg free]
  slots other apart := by rw [pending_openAt, Table.get_insert_of_ne _ _ apart]

theorem displaced_removeAt (s : DhtNode) (addr : SocketAddr) : s.Displaced addr (s.removeAt addr) where
  lost rx _ taken := by rw [channels_removeAt, if_pos taken]
  channels rx _ free := by rw [channels_removeAt, if_neg free]
  slots other apart := Table.get_remove_of_ne _ apart

theorem Displaced.free_iff {addr : SocketAddr} (displaced : s.Displaced addr t) (slots : s.Slots) (matched : Matched (s, sourced)) :
    s.Free addr ↔ ∀ j addr' rx resume, s.tasks.get j = some (.waiting addr' rx resume) →
      Served (t, sourced) addr' rx resume.request := by
  constructor
  · intro free j addr' rx resume waits
    have channel := displaced.channels rx (slots.below j addr' rx resume waits) (free j addr' rx resume waits)
    rcases matched j addr' rx resume waits with ⟨empty, slot⟩ | ⟨msg, sentFor, got, rest⟩
    · have apart : addr' ≠ addr := fun same => free j addr' rx resume waits (same ▸ slot)
      exact .inl ⟨channel.trans empty, (displaced.slots addr' apart).trans slot⟩
    · exact .inr ⟨msg, sentFor, channel.trans got, rest⟩
  · intro served j addr' rx resume waits taken
    have closed := displaced.lost rx (slots.below j addr' rx resume waits) taken
    rcases served j addr' rx resume waits with ⟨empty, -⟩ | ⟨msg, sentFor, got, -⟩
    · cases closed.symm.trans empty
    · cases closed.symm.trans got

theorem begins_iff {i : Nat} {task : Task} {addr : SocketAddr} {msg : RpcMsg} {resume : Resume} (here : s.tasks.get i = some task)
    (asks : task.call? = some (addr, msg, resume)) {label : Sending} {b : Answering} (begins : label.1 = .call i ∨ label.1 = .fail i) :
    Fits C (s, sourced) label b ↔ s.Free addr := by
  have fits : Fits C (s, sourced) label b ↔ ∀ task addr msg resume, s.tasks.get i = some task →
      task.call? = some (addr, msg, resume) → s.Free addr := by
    unfold Fits
    rcases begins with same | same <;> rw [same]
  refine fits.trans ⟨fun free => free task addr msg resume here asks, fun free task' addr₁ msg₁ resume₁ here' asks' => ?_⟩
  cases here'.symm.trans here
  cases asks'.symm.trans asks
  exact free

theorem not_waiting_of_call {i : Nat} {task : Task} {addr addr' : SocketAddr} {msg : RpcMsg} {resume resume' : Resume} {rx : ReplyTx}
    (here : s.tasks.get i = some task) (asks : task.call? = some (addr, msg, resume)) :
    s.tasks.get i ≠ some (.waiting addr' rx resume') := by
  intro waits
  cases waits.symm.trans here
  cases asks

theorem deliver_iff (matched : Matched (s, sourced)) {src : SocketAddr} {data : List UInt8} {msg : RpcMsg}
    {tx : ReplyTx} (decoded : rpcDecode C (recvFrom data) = .ok msg) (reply : msg.isReply) (slot : s.kad.pending.get src = some tx)
    (sentFor : Option ReplyTx) {b : Answering} :
    Fits C (s, sourced) (.receive src data, sentFor) b ↔ Matched (s.deliver src tx msg, sourced.insert tx sentFor) := by
  constructor
  · intro fits i addr rx resume waits
    by_cases here : rx = tx
    · subst here
      exact .inr ⟨msg, sentFor, Table.get_insert_self .., Table.get_insert_self ..,
        fits msg decoded reply i addr rx resume waits slot⟩
    · rcases matched i addr rx resume waits with ⟨empty, there⟩ | ⟨msg', sentFor', got, source, answers⟩
      · have other : addr ≠ src := by
          rintro rfl
          exact here (Option.some.inj (there.symm.trans slot))
        exact .inl ⟨(Table.get_insert_of_ne _ _ here).trans empty, (Table.get_remove_of_ne _ other).trans there⟩
      · exact .inr ⟨msg', sentFor', (Table.get_insert_of_ne _ _ here).trans got, (Table.get_insert_of_ne _ _ here).trans source,
          answers⟩
  · intro after msg' decoded' _ i addr rx resume waits there
    cases decoded.symm.trans decoded'
    cases there.symm.trans slot
    rcases after i addr tx resume waits with ⟨empty, -⟩ | ⟨msg', sentFor', got, source, answers⟩
    · cases (Table.get_insert_self s.channels tx (Rx.got msg)).symm.trans empty
    · cases (Table.get_insert_self s.channels tx (Rx.got msg)).symm.trans got
      cases (Table.get_insert_self sourced tx sentFor).symm.trans source
      exact answers

theorem receive_fits_iff (matched : Matched (s, sourced)) (src : SocketAddr) (data : List UInt8) (sentFor : Option ReplyTx)
    {b : Answering} : Fits C (s, sourced) (.receive src data, sentFor) b ↔
      Matched (s.receive C src data, sources C (s, sourced) (.receive src data, sentFor)) := by
  by_cases reply : ∃ msg tx, rpcDecode C (recvFrom data) = .ok msg ∧ msg.isReply ∧ s.kad.pending.get src = some tx
  · obtain ⟨msg, tx, decoded, reply, slot⟩ := reply
    have sourced' : sources C (s, sourced) (.receive src data, sentFor) = sourced.insert tx sentFor := by
      simp only [sources, decoded, slot, reply, if_true]
    rw [receive_reply decoded reply slot, sourced', deliver_iff matched decoded reply slot]
  · have none : ∀ msg tx, rpcDecode C (recvFrom data) = .ok msg → msg.isReply → s.kad.pending.get src ≠ some tx :=
      fun msg tx decoded isReply slot => reply ⟨msg, tx, decoded, isReply, slot⟩
    have sourced' : sources C (s, sourced) (.receive src data, sentFor) = sourced := by
      simp only [sources]
      split
      next msg tx decoded slot => exact if_neg fun isReply => none msg tx decoded isReply slot
      next => rfl
    obtain ⟨pending, channels, -⟩ := receive_other _ _ none
    rw [sourced']
    refine ⟨fun _ i addr rx resume waits => ?_, fun _ msg decoded isReply i addr rx resume _ slot => ?_⟩
    · dsimp only at waits
      rw [receive_tasks] at waits
      exact Served.of_same (matched i addr rx resume waits) (congrArg (Table.get · rx) channels) (congrArg (Table.get · addr) pending)
    · exact absurd slot (none msg rx decoded isReply)

theorem matched_iff {a b : Answering} {label : Sending} (slots : a.1.Slots) (matched : Matched a) (step : CallStep C a label b) :
    Fits C a label b ↔ Matched b := by
  obtain ⟨s, sourced⟩ := a
  obtain ⟨t, sourced'⟩ := b
  obtain ⟨event, sentFor⟩ := label
  obtain ⟨move, same⟩ := step
  dsimp only at move slots same
  subst same
  cases move with
  | receive src data => exact receive_fits_iff matched src data sentFor
  | start _ initial =>
    refine ⟨fun _ j addr rx resume waits => ?_, fun _ => trivial⟩
    exact Served.of_same (matched j addr rx resume (waits_before initial.waits waits).2) rfl rfl
  | @advance _ i task here step =>
    rcases advance_slots step with ⟨addr, resume, rfl, rfl⟩ | ⟨other, pending, channels, -, next, tasks, still⟩
    · -- The slot is cleared, whoever waits there.
      have fits : Fits C (s, sourced) (.advance i, sentFor) ((s.removeAt addr).put i (resume.reply none), sourced) ↔ s.Free addr := by
        refine ⟨fun free => free addr resume here, fun free addr' resume' here' => ?_⟩
        cases here'.symm.trans here
        exact free
      refine fits.trans (((s.displaced_removeAt addr).free_iff slots matched).trans
        ⟨fun served j addr' rx resume' waits => ?_, fun after j addr' rx resume' waits => ?_⟩)
      · obtain ⟨-, before⟩ := waits_before (resume.reply_waits none) waits
        rw [tasks_removeAt] at before
        exact Served.of_same (served j addr' rx resume' before) rfl rfl
      · have apart : j ≠ i := by
          rintro rfl
          cases waits.symm.trans here
        refine Served.of_same (after j addr' rx resume' ?_) rfl rfl
        exact (Table.get_insert_of_ne _ _ apart).trans ((congrArg (Table.get · j) (s.tasks_removeAt addr)).trans waits)
    · refine ⟨fun _ j addr rx resume waits => ?_, fun _ addr resume expired => ?_⟩
      · dsimp only at waits
        rw [tasks] at waits
        exact Served.of_same (matched j addr rx resume (waits_before still waits).2) (congrArg (Table.get · rx) channels)
          (congrArg (Table.get · addr) pending)
      · exact absurd (Option.some.inj (here.symm.trans expired)) (other addr resume)
  | @call i task addr msg resume here asks =>
    refine (begins_iff here asks (.inl rfl)).trans (((s.displaced_openAt addr).free_iff slots matched).trans
      ⟨fun served j addr' rx resume' waits => ?_, fun after j addr' rx resume' waits => ?_⟩)
    · rcases Table.get_insert_some waits with ⟨-, same⟩ | ⟨-, before⟩
      · cases same
        refine .inl ⟨s.openAt_empty addr, ?_⟩
        exact (congrArg (Table.get · addr) (s.pending_openAt addr)).trans (Table.get_insert_self ..)
      · rw [tasks_openAt] at before
        exact Served.of_same (served j addr' rx resume' before) rfl rfl
    · have apart : j ≠ i := fun same => not_waiting_of_call here asks (same ▸ waits)
      refine Served.of_same (after j addr' rx resume' ?_) rfl rfl
      exact (Table.get_insert_of_ne _ _ apart).trans ((congrArg (Table.get · j) (s.tasks_openAt addr)).trans waits)
  | @fail i task addr msg resume here asks =>
    refine (begins_iff here asks (.inr rfl)).trans (((s.displaced_openAt addr).free_iff slots matched).trans
      ⟨fun served j addr' rx resume' waits => ?_, fun after j addr' rx resume' waits => ?_⟩)
    · obtain ⟨-, before⟩ := waits_before (resume.reply_waits none) waits
      rw [tasks_openAt] at before
      exact Served.of_same (served j addr' rx resume' before) rfl rfl
    · have apart : j ≠ i := fun same => not_waiting_of_call here asks (same ▸ waits)
      refine Served.of_same (after j addr' rx resume' ?_) rfl rfl
      exact (Table.get_insert_of_ne _ _ apart).trans ((congrArg (Table.get · j) (s.tasks_openAt addr)).trans waits)
  | expire =>
    refine ⟨fun _ j addr' rx' resume' waits => ?_, fun _ => trivial⟩
    exact Served.of_same (matched j addr' rx' resume' (waits_before rfl waits).2) rfl rfl

structure Matches (a : Answering) : Prop where
  slots : a.1.Slots
  matched : Matched a

/-- With any calls to make, under any datagrams and any schedule: every waiting call gets the reply to its own
request if it comes, and no other, exactly as long as no call begins or clears its slot where another waits
and what comes from an address in whose slot a call waits is the reply to it. -/
theorem calls_matched_iff (identity : NodeIdentity C) (ownDesc : Descriptor) (callers : Table Nat Task)
    (idle : ∀ i task, callers.get i = some task → task.waits = false) (events : List Sending) (t : Answering) :
    Run (Such (CallStep C) fun _ _ after => Matched after) ({ spawn identity ownDesc [] with tasks := callers }, .empty) events t ↔
      Run (Such (CallStep C) (Fits C)) ({ spawn identity ownDesc [] with tasks := callers }, .empty) events t := by
  have never : ∀ {i : Nat} {addr : SocketAddr} {rx : ReplyTx} {resume : Resume},
      callers.get i ≠ some (.waiting addr rx resume) := fun waits => nomatch idle _ _ waits
  refine (Run.such_iff Matches (fun a label b before step => ?_) (fun a label b before step => ?_) ⟨⟨?_, ?_, ?_⟩, ?_⟩).symm
  · exact ⟨before.slots.step step.1.1, (matched_iff before.slots before.matched step.1).mp step.2⟩
  · exact matched_iff before.slots before.matched step
  · intro addr tx here
    cases here
  · intro addr addr' tx here
    cases here
  · intro i addr rx resume waits
    exact absurd waits never
  · intro i addr rx resume waits
    exact absurd waits never

end DhtNode

namespace Transparent

open Nbf.Crypto.Transparent

def pair : Table Nat Task :=
  (Table.empty.insert 0 (.calls [(known.addr, .find wanted false)])).insert 1 (.calls [(known.addr, .ping 7)])

theorem pair_idle (i : Nat) (task : Task) (here : pair.get i = some task) : task.waits = false := by
  rcases Table.get_insert_some here with ⟨-, rfl⟩ | ⟨-, before⟩
  · rfl
  · rcases Table.get_insert_some before with ⟨-, rfl⟩ | ⟨-, none⟩
    · rfl
    · cases none

def calling : DhtNode := { DhtNode.spawn (identity 1) (descriptor 1 9100) [] with tasks := pair }

def finding : DhtNode :=
  { calling.openAt known.addr with sent := calling.sent ++ Kademlia.sendRaw known.addr (.find wanted false) }.put 0
    (.waiting known.addr 0 (.calls (.find wanted false) []))

def pinging : DhtNode :=
  { finding.openAt known.addr with sent := finding.sent ++ Kademlia.sendRaw known.addr (.ping 7) }.put 1
    (.waiting known.addr 1 (.calls (.ping 7) []))

theorem find_called : DhtNode.Step crates calling (.call 0) finding :=
  have here : calling.tasks.get 0 = some (.calls [(known.addr, .find wanted false)]) := rfl
  .call here rfl

theorem ping_called : DhtNode.Step crates finding (.call 1) pinging :=
  have here : finding.tasks.get 1 = some (.calls [(known.addr, .ping 7)]) := rfl
  .call here rfl

theorem one_call_matched : ∃ t, Run (Such (CallStep crates) fun _ _ after => Matched after) (calling, .empty) [(.call 0, none)] t := by
  refine ⟨(_, .empty), (DhtNode.calls_matched_iff (identity 1) (descriptor 1 9100) pair pair_idle _ _).mpr
    (.single ⟨⟨find_called, rfl⟩, ?_⟩)⟩
  intro task addr msg resume _ _ j addr' rx resume' waits
  exact nomatch pair_idle j _ waits

/-- The PING takes the slot of the FIND and gets its reply. -/
theorem found_for_ping : ∃ events t, Run (CallStep crates) (calling, .empty) events t ∧
    t.1.tasks.get 0 = some (.waiting known.addr 0 (.calls (.find wanted false) [])) ∧ t.1.channels.get 0 = some .closed ∧
    t.1.tasks.get 1 = some (.waiting known.addr 1 (.calls (.ping 7) [])) ∧
    t.1.channels.get 1 = some (.got (.found [] none)) ∧ t.2.get 1 = some (some 0) ∧ ¬ Matched t := by
  obtain ⟨data, -, decoded⟩ := rpcDecode_recvFrom (by decide) (rpcDecode_found (C := crates) [] none (by decide) (by simp))
  have slot : pinging.kad.pending.get known.addr = some 1 := rfl
  have got := DhtNode.Step.receive (C := crates) pinging known.addr data
  rw [DhtNode.receive_reply decoded rfl slot] at got
  have third : CallStep crates (pinging, .empty) (.receive known.addr data, some 0)
      (pinging.deliver known.addr 1 (.found [] none), Table.empty.insert 1 (some 0)) :=
    ⟨got, by simp only [sources, decoded, slot, RpcMsg.isReply, if_true]⟩
  have first : CallStep crates (calling, .empty) (.call 0, none) (finding, .empty) := ⟨find_called, rfl⟩
  have second : CallStep crates (finding, .empty) (.call 1, none) (pinging, .empty) := ⟨ping_called, rfl⟩
  refine ⟨_, _, ((Run.single first).snoc second).snoc third, rfl, rfl, rfl, rfl, rfl, ?_⟩
  intro matched
  rcases matched 1 known.addr 1 (.calls (.ping 7) []) rfl with ⟨empty, -⟩ | ⟨msg, sentFor, got, -, answers⟩
  · cases empty
  · cases got
    exact answers

end Transparent
end Nbf.Dht

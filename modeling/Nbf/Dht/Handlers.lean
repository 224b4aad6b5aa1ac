import Nbf.Dht.Served

/-! The handlers of the receive loop (`run` and `handle` in `kademlia.rs`).

Every datagram but a reply that somebody waits for gets a handler of its own. It runs
beside the loop, the tasks that call and the other handlers, and takes the locks of
the store and of the table one after the other.
-/

set_option autoImplicit false

namespace Nbf.Dht

open Nbf.Library Nbf.Crypto Nbf.Net

/-- A handler, at the lock that it takes next. -/
inductive Handler where
  | begin (src : SocketAddr) (data : List UInt8)
  /-- FIND: `closest` has read the table, the store is still to be read. -/
  | value (src : SocketAddr) (key : NodeId) (near : List Contact)
  /-- STORE: the descriptor is stored, its contact still to be merged. -/
  | merge (desc : Descriptor)

structure Serving where
  node : DhtNode
  handlers : Table Nat Handler

inductive ServingEvent where
  /-- A datagram comes in; `j` is for the handler that it may get. -/
  | receive (j : Nat) (src : SocketAddr) (data : List UInt8)
  | handle (j : Nat)
  /-- A step of a task that calls. -/
  | task (event : Event)

def Kademlia.keep (kad : Kademlia) (desc : Descriptor) : Kademlia := { kad with store := kad.store.insert desc.nodeId desc }

theorem Kademlia.Arranged.keep {kad : Kademlia} (arranged : kad.Arranged) (desc : Descriptor) : (kad.keep desc).Arranged :=
  ⟨arranged.named, arranged.own, arranged.ascending, arranged.short⟩

namespace Serving

section

variable (C : Crates)

def spawn {C : Crates} (identity : NodeIdentity C) (ownDesc : Descriptor) : Serving := ⟨.spawn identity ownDesc [], .empty⟩

def loop (s : Serving) (j : Nat) (src : SocketAddr) (data : List UInt8) : Serving :=
  let spawned : Serving := { s with handlers := s.handlers.insert j (.begin src (recvFrom data)) }
  match rpcDecode C (recvFrom data) with
  | .ok msg =>
    if msg.isReply then
      match s.node.kad.pending.get src with
      | some tx => { s with node := s.node.deliver src tx msg }
      | none => spawned
    else spawned
  | _ => spawned

def answer (s : Serving) (j : Nat) (dst : SocketAddr) (msg : RpcMsg) : Serving :=
  { node := { s.node with sent := s.node.sent ++ Kademlia.sendRaw dst msg }, handlers := s.handlers.remove j }

/-- The next step of a handler, under one lock at most. -/
def handle (s : Serving) (j : Nat) : Handler → Serving
  | .begin src data =>
    match rpcDecode C data with
    | .ok (.ping nonce) => s.answer j src (pingResponse nonce)
    | .ok (.store desc) => { node := { s.node with kad := s.node.kad.keep desc }, handlers := s.handlers.insert j (.merge desc) }
    | .ok (.find key wantValue) =>
      let near := s.node.kad.closest key k
      if wantValue then { s with handlers := s.handlers.insert j (.value src key near) }
      else s.answer j src (.found near none)
    | _ => { s with handlers := s.handlers.remove j }
  | .value src key near => s.answer j src (.found near (s.node.kad.store.get key))
  | .merge desc =>
    { node := { s.node with kad := s.node.kad.tryMerge [Contact.fromDesc desc] }, handlers := s.handlers.remove j }

inductive Step : Serving → ServingEvent → Serving → Prop where
  | receive {s : Serving} {j : Nat} (src : SocketAddr) (data : List UInt8) : s.handlers.get j = none →
      Step s (.receive j src data) (s.loop C j src data)
  | handle {s : Serving} {j : Nat} {handler : Handler} : s.handlers.get j = some handler →
      Step s (.handle j) (s.handle C j handler)
  | task {s : Serving} {event : Event} {t : DhtNode} : (∀ src data, event ≠ .receive src data) →
      DhtNode.Step C s.node event t → Step s (.task event) { s with node := t }

def storing (s : Serving) : ServingEvent → Option Descriptor
  | .handle j =>
    match s.handlers.get j with
    | some (.begin _ data) =>
      match rpcDecode C data with
      | .ok (.store desc) => some desc
      | _ => none
    | _ => none
  | _ => none

end

def merging (s : Serving) : ServingEvent → Option (List Contact)
  | .handle j =>
    match s.handlers.get j with
    | some (.merge desc) => some [Contact.fromDesc desc]
    | _ => none
  | .task (.advance i) =>
    match s.node.tasks.get i with
    | some (.merging contacts _) => some contacts
    | _ => none
  | _ => none

def reading (s : Serving) : ServingEvent → Option NodeId
  | .handle j =>
    match s.handlers.get j with
    | some (.value _ key _) => some key
    | _ => none
  | _ => none

variable {C : Crates} {s t : Serving} {event : ServingEvent}

theorem loop_reply {j : Nat} {src : SocketAddr} {data : List UInt8} {msg : RpcMsg} {tx : ReplyTx}
    (decoded : rpcDecode C (recvFrom data) = .ok msg) (reply : msg.isReply) (slot : s.node.kad.pending.get src = some tx) :
    s.loop C j src data = { s with node := s.node.deliver src tx msg } := by
  simp only [loop, decoded, reply, slot, if_true]

theorem loop_spawns {j : Nat} {src : SocketAddr} {data : List UInt8}
    (other : ∀ msg tx, rpcDecode C (recvFrom data) = .ok msg → msg.isReply → s.node.kad.pending.get src ≠ some tx) :
    s.loop C j src data = { s with handlers := s.handlers.insert j (.begin src (recvFrom data)) } := by
  unfold loop
  split
  next msg decoded =>
    split
    next reply =>
      split
      next tx slot => exact absurd slot (other msg tx decoded reply)
      next => rfl
    next => rfl
  next => rfl

theorem loop_cases (s : Serving) (j : Nat) (src : SocketAddr) (data : List UInt8) :
    (∃ msg tx, rpcDecode C (recvFrom data) = .ok msg ∧ msg.isReply ∧ s.node.kad.pending.get src = some tx ∧
      s.loop C j src data = { s with node := s.node.deliver src tx msg }) ∨
    s.loop C j src data = { s with handlers := s.handlers.insert j (.begin src (recvFrom data)) } := by
  by_cases reply : ∃ msg tx, rpcDecode C (recvFrom data) = .ok msg ∧ msg.isReply ∧ s.node.kad.pending.get src = some tx
  · obtain ⟨msg, tx, decoded, reply, slot⟩ := reply
    exact .inl ⟨msg, tx, decoded, reply, slot, loop_reply decoded reply slot⟩
  · exact .inr (loop_spawns fun msg tx decoded isReply slot => reply ⟨msg, tx, decoded, isReply, slot⟩)

inductive Handles (C : Crates) (s : Serving) (j : Nat) : Handler → Serving → Prop where
  | ping {src : SocketAddr} {data : List UInt8} {nonce : UInt64} : rpcDecode C data = .ok (.ping nonce) →
      Handles C s j (.begin src data) (s.answer j src (pingResponse nonce))
  | store {src : SocketAddr} {data : List UInt8} {desc : Descriptor} : rpcDecode C data = .ok (.store desc) →
      Handles C s j (.begin src data)
        { node := { s.node with kad := s.node.kad.keep desc }, handlers := s.handlers.insert j (.merge desc) }
  | look {src : SocketAddr} {data : List UInt8} {key : NodeId} : rpcDecode C data = .ok (.find key true) →
      Handles C s j (.begin src data) { s with handlers := s.handlers.insert j (.value src key (s.node.kad.closest key k)) }
  | find {src : SocketAddr} {data : List UInt8} {key : NodeId} : rpcDecode C data = .ok (.find key false) →
      Handles C s j (.begin src data) (s.answer j src (.found (s.node.kad.closest key k) none))
  /-- Nothing that can be read, or a reply that nobody waits for. -/
  | nothing {src : SocketAddr} {data : List UInt8} : (∀ msg, rpcDecode C data = .ok msg → msg.isReply) →
      Handles C s j (.begin src data) { s with handlers := s.handlers.remove j }
  | value {src : SocketAddr} {key : NodeId} {near : List Contact} :
      Handles C s j (.value src key near) (s.answer j src (.found near (s.node.kad.store.get key)))
  | merge {desc : Descriptor} :
      Handles C s j (.merge desc)
        { node := { s.node with kad := s.node.kad.tryMerge [Contact.fromDesc desc] }, handlers := s.handlers.remove j }

theorem handle_cases (s : Serving) (j : Nat) (handler : Handler) : Handles C s j handler (s.handle C j handler) := by
  cases handler with
  | value src key near => exact .value
  | merge desc => exact .merge
  | begin src data =>
    dsimp only [handle]
    cases decoded : rpcDecode C data with
    | error | panic => exact .nothing (by simp [decoded])
    | ok msg =>
      cases msg with
      | ping nonce => exact .ping decoded
      | store desc => exact .store decoded
      | found | pong =>
        refine .nothing fun msg same => ?_
        cases decoded.symm.trans same
        rfl
      | find key wantValue =>
        cases wantValue with
        | true => exact .look decoded
        | false => exact .find decoded

/-! ## What a step changes -/

inductive Change (C : Crates) (s : Serving) (event : ServingEvent) (t : Serving) : Prop where
  | none : s.storing C event = none → s.merging event = none → s.node.SameTables t.node → Change C s event t
  | stored {desc : Descriptor} : s.storing C event = some desc → s.merging event = none → t.node.kad = s.node.kad.keep desc →
      Change C s event t
  | merged {contacts : List Contact} : s.storing C event = none → s.merging event = some contacts →
      t.node.kad = s.node.kad.tryMerge contacts → Change C s event t

theorem Step.change (step : Step C s event t) : Change C s event t := by
  cases step with
  | @receive j src data _ =>
    refine .none rfl rfl ?_
    rcases s.loop_cases (C := C) j src data with ⟨msg, tx, -, -, -, same⟩ | same <;> rw [same] <;> rfl
  | @handle j handler here =>
    have move := s.handle_cases (C := C) j handler
    generalize s.handle C j handler = t at move
    cases move with
    | ping decoded | look decoded | find decoded =>
      exact .none (by simp only [storing, here, decoded]) (by simp only [merging, here]) rfl
    | store decoded => exact .stored (by simp only [storing, here, decoded]) (by simp only [merging, here]) rfl
    | @nothing src data other =>
      refine .none ?_ (by simp only [merging, here]) rfl
      simp only [storing, here]
      split
      next desc decoded => cases other _ decoded
      next => rfl
    | value => exact .none (by simp only [storing, here]) (by simp only [merging, here]) rfl
    | merge => exact .merged (by simp only [storing, here]) (by simp only [merging, here]) rfl
  | @task event u other step =>
    cases step with
    | receive src data => exact absurd rfl (other src data)
    | start => exact .none rfl rfl (.of_eq rfl)
    | call | fail => exact .none rfl rfl (s.node.openAt_same _)
    | expire => exact .none rfl rfl (.of_eq rfl)
    | @advance _ i task here step =>
      rcases DhtNode.advance_tables step with ⟨other, same⟩ | ⟨contacts, resume, rfl, merged⟩
      · refine .none rfl ?_ same
        simp only [merging, here]
        split
        next contacts resume task => exact absurd (Option.some.inj task) (other contacts resume)
        next => rfl
      · exact .merged rfl (by simp only [merging, here]) merged

theorem Step.arranged (step : Step C s event t) (arranged : s.node.kad.Arranged) : t.node.kad.Arranged := by
  cases step.change with
  | none _ _ same =>
    rw [same]
    exact ⟨arranged.named, arranged.own, arranged.ascending, arranged.short⟩
  | stored _ _ kept => exact kept ▸ arranged.keep _
  | merged _ _ merged => exact merged ▸ arranged.tryMerge _

theorem storing_verified {desc : Descriptor} (storing : s.storing C event = some desc) : desc.Verified C := by
  unfold Serving.storing at storing
  split at storing
  · split at storing
    · split at storing
      next decoded =>
        cases storing
        exact rpcDecode_store_verified decoded
      next => cases storing
    · cases storing
  · cases storing

theorem Step.sound (step : Step C s event t) (sound : s.node.kad.Sound C) : t.node.kad.Sound C := by
  intro key d here
  cases step.change with
  | none _ _ same => exact sound key d (same.store ▸ here)
  | stored storing _ kept =>
    rw [kept] at here
    rcases Table.get_insert_some here with ⟨same, rfl⟩ | ⟨-, old⟩
    · exact ⟨same.symm, storing_verified storing⟩
    · exact sound key d old
  | merged _ _ merged =>
    rw [merged] at here
    exact sound key d here

/-- A handler between its two locks stays there until it takes the second, and none comes there but from the first. -/
theorem Step.merges (step : Step C s event t) (j : Nat) (desc : Descriptor) : t.handlers.get j = some (.merge desc) ↔
    (s.handlers.get j = some (.merge desc) ∧ event ≠ .handle j) ∨ (event = .handle j ∧ s.storing C event = some desc) := by
  cases step with
  | @receive j' src data free =>
    rcases s.loop_cases (C := C) j' src data with ⟨msg, tx, -, -, -, same⟩ | same
    · simp [same]
    · rw [same, Table.get_insert]
      split
      next here => simp [here, free]
      next => simp
  | @handle j' handler here =>
    by_cases own : j = j'
    · subst own
      have move := s.handle_cases (C := C) j handler
      generalize s.handle C j handler = u at move
      cases move with
      | ping decoded | look decoded | find decoded => simp [storing, here, decoded, answer]
      | store decoded => simp [storing, here, decoded]
      | @nothing src data other =>
        have none : s.storing C (.handle j) = none := by
          simp only [storing, here]
          split
          next desc decoded => cases other _ decoded
          next => rfl
        simp [none]
      | value => simp [storing, here, answer]
      | merge => simp [storing, here]
    · have same : (s.handle C j' handler).handlers.get j = s.handlers.get j := by
        have move := s.handle_cases (C := C) j' handler
        generalize s.handle C j' handler = u at move
        cases move <;> simp [answer, own]
      rw [same]
      simp [Ne.symm own]
  | task => simp

/-! ## Handlers that nothing comes between -/

theorem Step.handles (node : DhtNode) (handlers : Table Nat Handler) (j : Nat) (handler : Handler) :
    Step C ⟨node, handlers.insert j handler⟩ (.handle j) (Serving.handle C ⟨node, handlers.insert j handler⟩ j handler) :=
  .handle (Table.get_insert_self ..)

theorem store_steps {s : Serving} {j : Nat} (free : s.handlers.get j = none) (src : SocketAddr) {data : List UInt8}
    {desc : Descriptor} (decoded : rpcDecode C (recvFrom data) = .ok (.store desc)) :
    Step C s (.receive j src data) { s with handlers := s.handlers.insert j (.begin src (recvFrom data)) } ∧
    Step C { s with handlers := s.handlers.insert j (.begin src (recvFrom data)) } (.handle j)
      ⟨{ s.node with kad := s.node.kad.keep desc }, s.handlers.insert j (.merge desc)⟩ ∧
    Step C ⟨{ s.node with kad := s.node.kad.keep desc }, s.handlers.insert j (.merge desc)⟩ (.handle j)
      { s with node := { s.node with kad := (s.node.kad.keep desc).tryMerge [Contact.fromDesc desc] } } := by
  refine ⟨?_, ?_, ?_⟩
  · have received := Step.receive (C := C) src data free
    rwa [loop_spawns fun msg tx same reply => by cases decoded.symm.trans same; cases reply] at received
  · have kept := Step.handles (C := C) s.node s.handlers j (.begin src (recvFrom data))
    simpa only [handle, decoded, Table.insert_insert] using kept
  · have merged := Step.handles (C := C) { s.node with kad := s.node.kad.keep desc } s.handlers j (.merge desc)
    simpa only [handle, Table.remove_insert, Table.remove_of_none _ free] using merged

/-- A datagram, and its handler at once, as one step has it. -/
theorem receive_run {s : Serving} {j : Nat} (free : s.handlers.get j = none) (src : SocketAddr) (data : List UInt8) :
    ∃ events, Run (Step C) s events { s with node := s.node.receive C src data } := by
  have ends (handler : Handler) : (s.handlers.insert j handler).remove j = s.handlers := by
    rw [Table.remove_insert, Table.remove_of_none _ free]
  have first := Step.receive (C := C) src data free
  generalize received : s.node.receive C src data = u
  have move : DhtNode.Receive C s.node src data u := received ▸ DhtNode.receive_cases C s.node src data
  have spawned (other : ∀ msg tx, rpcDecode C (recvFrom data) = .ok msg → msg.isReply → s.node.kad.pending.get src ≠ some tx) :
      Run (Step C) s [.receive j src data] { s with handlers := s.handlers.insert j (.begin src (recvFrom data)) } := by
    rw [← loop_spawns other]
    exact .single first
  have second := Step.handles (C := C) s.node s.handlers j (.begin src (recvFrom data))
  cases move with
  | dropped none =>
    have run := (spawned fun msg tx decoded => absurd decoded (none msg)).snoc second
    have nothing :
        Serving.handle C ⟨s.node, s.handlers.insert j (.begin src (recvFrom data))⟩ j (.begin src (recvFrom data)) = s := by
      dsimp only [handle]
      split
      · exact absurd ‹_› (none _)
      · exact absurd ‹_› (none _)
      · exact absurd ‹_› (none _)
      · simp only [ends]
    exact ⟨_, nothing ▸ run⟩
  | reply decoded reply slot =>
    rw [loop_reply decoded reply slot] at first
    exact ⟨_, .single first⟩
  | @unasked msg decoded reply none =>
    have run := (spawned fun _ tx _ _ slot => by cases slot.symm.trans none).snoc second
    cases msg with
    | ping | store | find => cases reply
    | pong | found =>
      simp only [handle, decoded, ends] at run
      exact ⟨_, run⟩
  | ping decoded =>
    have run := (spawned fun msg tx same reply => by cases decoded.symm.trans same; cases reply).snoc second
    simp only [handle, decoded, answer, ends] at run
    exact ⟨_, run⟩
  | @store desc decoded =>
    obtain ⟨received, kept, merged⟩ := store_steps free src decoded
    exact ⟨_, ((Run.single received).snoc kept).snoc merged⟩
  | @find key wantValue decoded =>
    have run := (spawned fun msg tx same reply => by cases decoded.symm.trans same; cases reply).snoc second
    cases wantValue with
    | false =>
      simp only [handle, decoded, answer, ends, Bool.false_eq_true, if_false] at run
      exact ⟨_, run⟩
    | true =>
      simp only [handle, decoded, Table.insert_insert, if_true] at run
      have whole := run.snoc (.handles _ s.handlers j (.value src key (s.node.kad.closest key k)))
      simp only [handle, answer, ends] at whole
      exact ⟨_, whole⟩

/-- Where every handler runs without a break, all is as if it were one step with the datagram. -/
theorem serves {node node' : DhtNode} {events : List Event} (run : Run (DhtNode.Step C) node events node') :
    ∃ events', Run (Step C) ⟨node, .empty⟩ events' ⟨node', .empty⟩ := by
  induction run with
  | nil => exact ⟨[], .nil _⟩
  | @snoc mid _ _ event before last ih =>
    obtain ⟨events', sofar⟩ := ih
    have steps {u : DhtNode} (other : ∀ src data, event ≠ .receive src data) (step : DhtNode.Step C mid event u) :
        ∃ events', Run (Step C) ⟨node, .empty⟩ events' ⟨u, .empty⟩ := ⟨_, sofar.snoc (.task other step)⟩
    cases last with
    | receive src data =>
      obtain ⟨more, handled⟩ := receive_run (C := C) (s := ⟨mid, .empty⟩) (j := 0) rfl src data
      exact ⟨_, sofar.trans handled⟩
    | start free initial => exact steps nofun (.start free initial)
    | advance here step => exact steps nofun (.advance here step)
    | call here asks => exact steps nofun (.call here asks)
    | fail here asks => exact steps nofun (.fail here asks)
    | expire here empty => exact steps nofun (.expire here empty)

end Serving
end Nbf.Dht

import Nbf.Crypto.Transparent
import Nbf.Dht.Lookup

/-! Whose descriptor a lookup returns. -/

set_option autoImplicit false

namespace Nbf.Dht

open Nbf.Library Nbf.Crypto Nbf.Net

def Task.Named : Task → Prop
  | .found _ key (some d) => d.nodeId = key
  | .routed target (.ok d) => d.nodeId = target
  | _ => True

/-- A reply to a value lookup has no value, or one that names the key. -/
def Resume.Answered : Resume → RpcMsg → Prop
  | .lookup _ l, .found _ (some d) => l.wantValue = true → d.nodeId = l.key
  | _, _ => True

theorem Resume.task_named (resume : Resume) : resume.task.Named := by
  cases resume <;> trivial

theorem Resume.reply_none (resume : Resume) : (resume.reply none).Named := by
  cases resume with
  | lookup caller l => trivial
  | calls msg todo => cases msg <;> trivial

theorem Resume.reply_named (resume : Resume) (msg : RpcMsg) : (resume.reply (some msg)).Named ↔ resume.Answered msg := by
  cases resume with
  | calls sent todo => cases sent <;> cases msg <;> exact Iff.rfl
  | lookup caller l =>
    cases msg with
    | ping | pong | store | find => exact Iff.rfl
    | found contacts value =>
      cases value with
      | none => cases wantValue : l.wantValue <;> simp [Resume.reply, Resume.Answered, Task.Named, wantValue]
      | some d => cases wantValue : l.wantValue <;> simp [Resume.reply, Resume.Answered, Task.Named, wantValue]

theorem Lookup.enter_named (caller : Caller) (l : Lookup) : (Lookup.enter caller l).Named := by
  unfold Lookup.enter
  split <;> trivial

theorem Task.Initial.named {kad : Kademlia} {task : Task} (initial : task.Initial kad) : task.Named := by
  cases initial <;> trivial

namespace DhtNode

variable {C : Crates}

/-- Cached descriptors name their targets, returned ones what was asked for. -/
structure Named (s : DhtNode) : Prop where
  cached : ∀ target d, s.dhtCache.get target = some d → d.nodeId = target
  returned : ∀ i task, s.tasks.get i = some task → task.Named

def Answered (s : DhtNode) (event : Event) (_ : DhtNode) : Prop :=
  match event with
  | .advance i => ∀ addr rx resume msg, s.tasks.get i = some (.waiting addr rx resume) →
    s.channels.get rx = some (.got msg) → resume.Answered msg
  | _ => True

theorem Named.put {s : DhtNode} (named : s.Named) (i : Nat) {task : Task} (new : task.Named) : (s.put i task).Named where
  cached := named.cached
  returned j task' here := by
    rcases Table.get_insert_some here with ⟨-, rfl⟩ | ⟨-, old⟩
    · exact new
    · exact named.returned j task' old

theorem Named.cache {s : DhtNode} (named : s.Named) {target : NodeId} {d : Descriptor} (new : d.nodeId = target) :
    { s with dhtCache := s.dhtCache.insert target d }.Named where
  cached other d' here := by
    rcases Table.get_insert_some here with ⟨rfl, rfl⟩ | ⟨-, old⟩
    · exact new
    · exact named.cached other d' old
  returned := named.returned

@[simp] theorem dhtCache_closeAt (s : DhtNode) (addr : SocketAddr) : (s.closeAt addr).dhtCache = s.dhtCache := by
  unfold closeAt
  split <;> rfl

@[simp] theorem tasks_closeAt (s : DhtNode) (addr : SocketAddr) : (s.closeAt addr).tasks = s.tasks := by
  unfold closeAt
  split <;> rfl

@[simp] theorem kad_closeAt (s : DhtNode) (addr : SocketAddr) : (s.closeAt addr).kad = s.kad := by
  unfold closeAt
  split <;> rfl

@[simp] theorem dhtCache_removeAt (s : DhtNode) (addr : SocketAddr) : (s.removeAt addr).dhtCache = s.dhtCache :=
  s.dhtCache_closeAt addr

@[simp] theorem tasks_removeAt (s : DhtNode) (addr : SocketAddr) : (s.removeAt addr).tasks = s.tasks := s.tasks_closeAt addr

theorem openAt_kept (s : DhtNode) (addr : SocketAddr) : (s.openAt addr).dhtCache = s.dhtCache ∧
    (s.openAt addr).tasks = s.tasks ∧ (s.openAt addr).kad.store = s.kad.store := by
  unfold openAt
  simp

theorem Named.of_same {s t : DhtNode} (named : s.Named) (cache : t.dhtCache = s.dhtCache) (tasks : t.tasks = s.tasks) :
    t.Named := ⟨cache ▸ named.cached, tasks ▸ named.returned⟩

theorem receive_kept (s : DhtNode) (src : SocketAddr) (data : List UInt8) :
    (s.receive C src data).dhtCache = s.dhtCache ∧ (s.receive C src data).tasks = s.tasks ∧
      (s.kad.Keyed → (s.receive C src data).kad.Keyed) := by
  generalize received : s.receive C src data = t
  have move : Receive C s src data t := received ▸ receive_cases C s src data
  cases move with
  | store => exact ⟨rfl, rfl, fun keyed => keyed.handle src _⟩
  | dropped | reply | unasked | ping | find => exact ⟨rfl, rfl, id⟩

theorem receive_found {s : DhtNode} {src : SocketAddr} {data : List UInt8} {contacts : List Contact}
    {value : Option Descriptor} {tx : ReplyTx} (decoded : rpcDecode C (recvFrom data) = .ok (.found contacts value))
    (waits : s.kad.pending.get src = some tx) :
    s.receive C src data = { s with kad := { s.kad with pending := s.kad.pending.remove src },
                                    channels := s.channels.insert tx (.got (.found contacts value)) } := by
  simp only [receive, decoded, waits]

theorem advance_named {s t : DhtNode} {i : Nat} {task : Task} (keyed : s.kad.Keyed) (named : s.Named)
    (here : s.tasks.get i = some task) (step : s.advance i task = some t) (answered : s.Answered (.advance i) t) :
    t.kad.Keyed ∧ t.Named := by
  -- Only a task that waits takes in anything from outside.
  have right := named.returned i task here
  obtain ⟨u, next, move, rfl⟩ := advance_cases step
  cases move with
  | cached hit => exact ⟨keyed, named.put i (named.cached _ _ hit)⟩
  | stored hit => exact ⟨keyed, (named.cache (keyed _ _ hit)).put i (keyed _ _ hit)⟩
  | start | round => exact ⟨keyed, named.put i (Lookup.enter_named ..)⟩
  | @got addr rx resume msg got => exact ⟨keyed, named.put i ((resume.reply_named msg).mpr (answered addr rx resume msg here got))⟩
  | @closed addr rx resume _ => exact ⟨keyed, named.put i resume.reply_none⟩
  | @expired addr resume =>
    exact ⟨keyed, (named.of_same (s.dhtCache_removeAt addr) (s.tasks_removeAt addr)).put i resume.reply_none⟩
  | @merging contacts resume => exact ⟨keyed, ⟨named.cached, (named.put i resume.task_named).returned⟩⟩
  | found => exact ⟨keyed, (named.cache right).put i right⟩
  | uncached | unstored | converged | notFound => exact ⟨keyed, named.put i trivial⟩

structure Honest (s : DhtNode) : Prop where
  keyed : s.kad.Keyed
  named : s.Named

theorem Honest.step {s t : DhtNode} {event : Event} (honest : s.Honest) (step : Such (Step C) Answered s event t) : t.Honest := by
  obtain ⟨move, answered⟩ := step
  cases move with
  | receive src data =>
    obtain ⟨cache, tasks, keyed⟩ := receive_kept (C := C) s src data
    exact ⟨keyed honest.keyed, honest.named.of_same cache tasks⟩
  | start _ initial => exact ⟨honest.keyed, honest.named.put _ initial.named⟩
  | advance here step =>
    obtain ⟨keyed, named⟩ := advance_named honest.keyed honest.named here step answered
    exact ⟨keyed, named⟩
  | @call i _ addr _ resume _ _ =>
    obtain ⟨cache, tasks, store⟩ := s.openAt_kept addr
    have asking : (Task.waiting addr s.nextTx resume).Named := trivial
    refine ⟨fun key d stored => honest.keyed key d (store ▸ stored), Named.put ?_ i asking⟩
    exact honest.named.of_same cache tasks
  | @fail i _ addr _ resume _ _ =>
    obtain ⟨cache, tasks, store⟩ := s.openAt_kept addr
    exact ⟨fun key d stored => honest.keyed key d (store ▸ stored),
      (honest.named.of_same cache tasks).put i resume.reply_none⟩
  | expire => exact ⟨honest.keyed, honest.named.put _ trivial⟩

theorem honest_spawn {identity : NodeIdentity C} {ownDesc : Descriptor} (signed : Descriptor.SignedBy identity ownDesc)
    (rt : List Contact) : (spawn identity ownDesc rt).Honest := by
  refine ⟨fun key d stored => ?_, ⟨fun _ _ here => (by cases here), fun _ _ here => (by cases here)⟩⟩
  rcases Table.get_insert_some stored with ⟨same, rfl⟩ | ⟨-, old⟩
  · rw [same, signed.fields.1]
  · cases old

theorem named_iff_answered {s t : DhtNode} {event : Event} (honest : s.Honest) (step : Step C s event t) :
    s.Answered event t ↔ t.Named := by
  refine ⟨fun answered => (honest.step ⟨step, answered⟩).named, fun named => ?_⟩
  cases step with
  | advance here step =>
    intro addr rx resume msg waiting got
    rw [here, Option.some.injEq] at waiting
    subst waiting
    simp only [advance, got, Option.some.injEq] at step
    subst step
    exact (resume.reply_named msg).mp (named.returned _ _ (Table.get_insert_self ..))
  | receive | start | call | fail | expire => trivial

/-- From any routing table, under any datagrams and any schedule of the tasks: all that lookups
return and all that is cached names what was asked for, exactly, as long as the replies do. -/
theorem named_iff (identity : NodeIdentity C) (ownDesc : Descriptor) (signed : Descriptor.SignedBy identity ownDesc)
    (rt : List Contact) (events : List Event) (t : DhtNode) :
    Run (Such (Step C) fun _ _ after => after.Named) (spawn identity ownDesc rt) events t ↔
      Run (Such (Step C) Answered) (spawn identity ownDesc rt) events t :=
  (Run.such_iff Honest (fun _ _ _ honest step => honest.step step)
    (fun _ _ _ honest step => named_iff_answered honest step) (honest_spawn signed rt)).symm

end DhtNode

namespace Transparent

open Nbf.Crypto.Transparent

def asker : DhtNode := .spawn (identity 1) (descriptor 1 9100) [Contact.fromDesc (descriptor 20 9101)]

def wanted : NodeId := .replicate 20 21

def known : Contact := Contact.fromDesc (descriptor 20 9101)

theorem asker_closest {target : NodeId} (far : ¬ dist (Contact.fromDesc (descriptor 1 9100)).nodeId target ≤ dist known.nodeId target) :
    asker.kad.closest target k = [known, Contact.fromDesc (descriptor 1 9100)] :=
  congrArg (List.take k) ((sortByDist_pair ..).trans (if_neg far))

theorem asker_enters (caller : Caller) {target : NodeId}
    (far : ¬ dist (Contact.fromDesc (descriptor 1 9100)).nodeId target ≤ dist known.nodeId target) :
    ∃ rest, Lookup.enter caller ⟨target, true, asker.kad.closest target k, [], []⟩ =
      .lookup caller ⟨target, true, asker.kad.closest target k, [], known :: rest⟩ := by
  rw [asker_closest far]
  exact ⟨_, rfl⟩

theorem answered_of_moves {s : DhtNode} {i : Nat} {task : Task} (here : s.tasks.get i = some task)
    (moves : ∀ addr rx resume, task ≠ .waiting addr rx resume) (t : DhtNode) : s.Answered (.advance i) t := by
  intro addr rx resume msg waiting
  exact absurd (Option.some.inj (here.symm.trans waiting)) (moves addr rx resume)

theorem asker_told (target : NodeId) (other : target ≠ (identity 1).nodeId)
    (far : ¬ dist (Contact.fromDesc (descriptor 1 9100)).nodeId target ≤ dist known.nodeId target) : ∃ events t,
    Run (Such (DhtNode.Step crates) fun s event u => (descriptor 20 9101).nodeId = target → s.Answered event u) asker events t ∧
      t.dhtCache.get target = some (descriptor 20 9101) ∧ t.tasks.get 0 = some (.routed target (.ok (descriptor 20 9101))) := by
  have verified := (descriptor_signed 20 9101).verified lawful
  obtain ⟨data, -, decoded⟩ : ∃ data, rpcEncode (.found [] (some (descriptor 20 9101))) = .ok data ∧
      rpcDecode crates (recvFrom data) = .ok (.found [] (some (descriptor 20 9101))) :=
    rpcDecode_recvFrom (by decide) (rpcDecode_found _ _ (by decide) fun _ same => Option.some.inj same ▸ verified)
  obtain ⟨rest, enters⟩ := asker_enters .route far
  have miss : asker.kad.store.get target = none := (Table.get_insert_of_ne _ _ other).trans (Table.get_empty _)
  have moved {s t : DhtNode} {task : Task} (step : DhtNode.Step crates s (.advance 0) t) (here : s.tasks.get 0 = some task)
      (moves : ∀ addr rx resume, task ≠ .waiting addr rx resume) :
      Such (DhtNode.Step crates) (fun s event u => (descriptor 20 9101).nodeId = target → s.Answered event u) s (.advance 0) t :=
    ⟨step, fun _ => answered_of_moves here moves t⟩
  -- Neither the cache nor the store has it, so the lookup starts.
  have looking := Run.single (show Such (DhtNode.Step crates)
      (fun s event u => (descriptor 20 9101).nodeId = target → s.Answered event u) asker (.start 0 (.routeCache target)) _ from
    ⟨.start rfl (.lookupRoute target), fun _ => trivial⟩)
    |>.snoc (moved (.advance (Table.get_insert_self ..) rfl) (Table.get_insert_self ..) (by simp))
    |>.snoc (moved (.advance (Table.get_insert_self ..) (by simp only [DhtNode.advance, DhtNode.put, miss]; rfl))
      (Table.get_insert_self ..) (by simp))
    |>.snoc (moved (.advance (Table.get_insert_self ..) rfl) (Table.get_insert_self ..) (by simp))
  have asking := looking.snoc ⟨.call (i := 0) (Table.get_insert_self ..) (congrArg Task.call? enters), fun _ => trivial⟩
  have got := asking.snoc ⟨.receive _ known.addr data, fun _ => trivial⟩
  rw [DhtNode.receive_found decoded (Table.get_insert_self ..)] at got
  have answered := got.snoc ⟨.advance (i := 0) (Table.get_insert_self ..) (by
    simp only [DhtNode.advance, DhtNode.put]
    rfl), fun same _ _ _ _ waiting reply => by
    cases (Table.get_insert_self ..).symm.trans waiting
    cases (Table.get_insert_self ..).symm.trans reply
    exact fun _ => same⟩
  exact ⟨_, _, answered.snoc (moved (.advance (Table.get_insert_self ..) rfl) (Table.get_insert_self ..) (by simp [Resume.reply])),
    Table.get_insert_self .., Table.get_insert_self ..⟩

/-- Asked for itself, the other node gives the right answer. -/
theorem asker_named : ∃ events t, Run (Such (DhtNode.Step crates) fun _ _ after => after.Named) asker events t ∧
    t.dhtCache.get known.nodeId = some (descriptor 20 9101) ∧
    t.tasks.get 0 = some (.routed known.nodeId (.ok (descriptor 20 9101))) := by
  obtain ⟨events, t, run, cached, routed⟩ := asker_told known.nodeId (by decide) (by decide)
  have answered : Run (Such (DhtNode.Step crates) DhtNode.Answered) asker events t :=
    run.mono fun _ _ _ such => ⟨such.1, such.2 rfl⟩
  exact ⟨events, t, (DhtNode.named_iff (identity 1) (descriptor 1 9100) (descriptor_signed 1 9100)
    [Contact.fromDesc (descriptor 20 9101)] events t).mpr answered, cached, routed⟩

/-- The node that is asked answers with its own descriptor, which the asker caches for the wanted one. -/
theorem own_descriptor_cached : ∃ events t, Run (DhtNode.Step crates) asker events t ∧
    (descriptor 20 9101).Verified crates ∧ t.dhtCache.get wanted = some (descriptor 20 9101) ∧
    t.tasks.get 0 = some (.routed wanted (.ok (descriptor 20 9101))) ∧ (descriptor 20 9101).nodeId ≠ wanted := by
  obtain ⟨events, t, run, cached, routed⟩ := asker_told wanted (by decide) (by decide)
  exact ⟨events, t, run.mono fun _ _ _ => And.left, (descriptor_signed 20 9101).verified lawful, cached, routed, by decide⟩

end Transparent
end Nbf.Dht

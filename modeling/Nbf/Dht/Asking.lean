import Nbf.Dht.Calls

/-! How long a lookup takes, and whom it asks.

The loop of `lookup` ends when two looks at the table agree, and others keep
changing the table. What bounds it is `queried`: an id enters the list before its
FIND, a batch holds no id of the list and none twice, and no round is empty.
-/

set_option autoImplicit false

namespace Nbf.Dht

open Nbf.Library Nbf.Crypto Nbf.Net

variable {C : Crates}

/-! ## No id twice in the table -/

def Kademlia.Distinct (kad : Kademlia) : Prop := (kad.rt.map (·.nodeId)).Nodup

theorem distinct_mergeOne {id : NodeId} {rt : List Contact} (distinct : (rt.map (·.nodeId)).Nodup) (c : Contact) :
    ((Kademlia.mergeOne id rt c).map (·.nodeId)).Nodup := by
  unfold Kademlia.mergeOne
  split
  · exact distinct
  split
  · exact distinct
  next absent =>
    rw [List.map_append, List.nodup_append]
    refine ⟨distinct, by simp, fun i old j new same => absent ?_⟩
    obtain ⟨d, member, rfl⟩ := List.mem_map.mp old
    rw [List.map_singleton, List.mem_singleton] at new
    exact List.any_eq_true.mpr ⟨d, member, decide_eq_true (same.trans new)⟩

theorem distinct_foldl {id : NodeId} {rt : List Contact} (distinct : (rt.map (·.nodeId)).Nodup) (contacts : List Contact) :
    ((contacts.foldl (Kademlia.mergeOne id) rt).map (·.nodeId)).Nodup := by
  induction contacts generalizing rt with
  | nil => exact distinct
  | cons c contacts ih => exact ih (distinct_mergeOne distinct c)

theorem distinct_sortByDist {key : NodeId} {contacts : List Contact} (distinct : (contacts.map (·.nodeId)).Nodup) :
    ((sortByDist key contacts).map (·.nodeId)).Nodup := ((sortByDist_perm key contacts).map _).nodup_iff.mpr distinct

namespace Kademlia.Distinct

variable {kad : Kademlia} (distinct : kad.Distinct)
include distinct

theorem tryMerge (contacts : List Contact) : (kad.tryMerge contacts).Distinct := by
  have merged : ((contacts.foldl (Kademlia.mergeOne kad.id) kad.rt).map (·.nodeId)).Nodup := by
    exact distinct_foldl distinct contacts
  exact (distinct_sortByDist merged).sublist ((List.take_sublist 64 _).map _)

theorem closest (key : NodeId) (n : Nat) : ((kad.closest key n).map (·.nodeId)).Nodup :=
  (distinct_sortByDist distinct).sublist ((List.take_sublist n _).map _)

end Kademlia.Distinct

theorem DhtNode.Step.distinct {s t : DhtNode} {event : Event} (step : DhtNode.Step C s event t) (distinct : s.kad.Distinct) :
    t.kad.Distinct := by
  cases step.change with
  | none _ same =>
    unfold Kademlia.Distinct
    rw [same.rt]
    exact distinct
  | @stored src data desc _ =>
    have before : { s.kad with store := s.kad.store.insert desc.nodeId desc }.Distinct := distinct
    exact before.tryMerge _
  | @merged i contacts resume t _ merged =>
    rw [merged]
    exact distinct.tryMerge contacts

/-! ## What a lookup has done -/

/-- The node that the next FIND of the task goes to. -/
def Task.asks : Task → Option NodeId
  | .lookup _ l => l.batch.head?.map (·.nodeId)
  | _ => none

/-- The call that the task was started for has returned. -/
def Task.Over : Task → Prop
  | .found .direct _ _ => True
  | .routed _ _ => True
  | _ => False

/-- One entry for each step of a task: whom it asks in the step, if anybody. -/
def moves (i : Nat) (s : DhtNode) (event : Event) : List (Option NodeId) :=
  if event.task? = some i then [(s.tasks.get i).bind Task.asks] else []

def asked (log : List (Option NodeId)) : List NodeId := log.filterMap id

structure Asked (log : List (Option NodeId)) (l : Lookup) : Prop where
  all : asked log = l.queried
  once : (l.queried ++ l.batch.map (·.nodeId)).Nodup

/-- How far a lookup has come, with the number of its steps bounded by the number of ids it has asked. -/
def Paced (s : DhtNode) (log : List (Option NodeId)) : Task → Prop
  | .start _ _ _ => log = []
  | .lookup _ l => Asked log l ∧ log.length ≤ 4 * l.queried.length + (if l.batch = [] then 0 else 1)
  | .waiting _ rx (.lookup _ l) => Asked log l ∧ log.length + 2 ≤ 4 * l.queried.length ∧ (s.channels.get rx).isSome
  | .expired _ (.lookup _ l) | .merging _ (.lookup _ l) => Asked log l ∧ log.length + 1 ≤ 4 * l.queried.length
  | .found _ _ _ => (asked log).Nodup ∧ log.length ≤ 4 * (asked log).length + 1
  | .routed _ _ => (asked log).Nodup ∧ log.length ≤ 4 * (asked log).length + 2
  | _ => False

theorem asked_append_none (log : List (Option NodeId)) : asked (log ++ [none]) = asked log := by simp [asked]

theorem asked_append_some (log : List (Option NodeId)) (i : NodeId) : asked (log ++ [some i]) = asked log ++ [i] := by
  simp [asked]

section Steps

variable {s t : DhtNode} {log : List (Option NodeId)} {i : Nat} {caller : Caller} {l : Lookup}

theorem Asked.nodup (sofar : Asked log l) : (asked log).Nodup := by
  rw [sofar.all]
  exact (List.nodup_append.mp sofar.once).1

theorem Asked.idle (sofar : Asked log l) : Asked (log ++ [none]) l := ⟨(asked_append_none log).trans sofar.all, sofar.once⟩

theorem Asked.ask {c : Contact} {batch : List Contact} (sofar : Asked log l) (next : l.batch = c :: batch) :
    Asked (log ++ [some c.nodeId]) { l with queried := l.queried ++ [c.nodeId], batch } where
  all := by rw [asked_append_some, sofar.all]
  once := by
    have once := sofar.once
    rw [next, List.map_cons] at once
    rwa [List.append_assoc, List.singleton_append]

theorem Paced.enter (sofar : asked log = l.queried) (once : l.queried.Nodup) (short : log.length ≤ 4 * l.queried.length + 1)
    (distinct : (l.closestSeen.map (·.nodeId)).Nodup) (caller : Caller) : Paced s log (Lookup.enter caller l) := by
  unfold Lookup.enter
  split
  · refine ⟨sofar ▸ once, ?_⟩
    rw [sofar]
    exact short
  next some =>
    refine ⟨⟨sofar, List.nodup_append.mpr ⟨once, ?_, ?_⟩⟩, ?_⟩
    · exact distinct.sublist (((List.take_sublist _ _).trans List.filter_sublist).map _)
    · rintro i old j new rfl
      obtain ⟨c, member, rfl⟩ := List.mem_map.mp new
      have fresh := List.of_mem_filter (List.mem_of_mem_take member)
      exact of_decide_eq_true fresh old
    · rw [if_neg some]
      exact short

theorem reply_lookup (caller : Caller) (l : Lookup) (reply? : Option RpcMsg) :
    (Resume.lookup caller l).reply reply? = .lookup caller l ∨
      (∃ contacts, (Resume.lookup caller l).reply reply? = .merging contacts (.lookup caller l)) ∨
      ∃ v, (Resume.lookup caller l).reply reply? = .found caller l.key (some v) := by
  cases reply? with
  | none => exact .inl rfl
  | some msg =>
    cases msg with
    | ping | pong | store | find => exact .inl rfl
    | found contacts value =>
      unfold Resume.reply
      dsimp only
      split
      · exact .inr (.inr ⟨_, rfl⟩)
      · exact .inr (.inl ⟨contacts, rfl⟩)

theorem Paced.reply (sofar : Asked log l) (short : log.length + 2 ≤ 4 * l.queried.length) (caller : Caller) (reply? : Option RpcMsg) :
    Paced s (log ++ [none]) ((Resume.lookup caller l).reply reply?) := by
  have longer : (log ++ [(none : Option NodeId)]).length = log.length + 1 := List.length_append
  rcases reply_lookup caller l reply? with same | ⟨contacts, same⟩ | ⟨v, same⟩
  · rw [same]
    exact ⟨sofar.idle, by omega⟩
  · rw [same]
    exact ⟨sofar.idle, by omega⟩
  · rw [same]
    refine ⟨sofar.idle.nodup, ?_⟩
    rw [sofar.idle.all]
    omega

theorem Task.call_lookup {task : Task} {addr : SocketAddr} {msg : RpcMsg} {resume : Resume} (paced : Paced s log task)
    (asks : task.call? = some (addr, msg, resume)) :
    ∃ caller l, resume = .lookup caller l ∧ Asked (log ++ [task.asks]) l ∧ (log ++ [task.asks]).length + 2 ≤ 4 * l.queried.length := by
  cases task with
  | lookup caller l =>
    obtain ⟨sofar, short⟩ := paced
    simp only [Task.call?] at asks
    split at asks
    · cases asks
    next c batch next =>
    cases asks
    have some : Task.asks (.lookup caller l) = some c.nodeId := by simp [Task.asks, next]
    rw [if_neg (by simp [next])] at short
    refine ⟨_, _, rfl, some ▸ sofar.ask next, ?_⟩
    simp only [List.length_append, List.length_singleton]
    omega
  | calls => exact paced.elim
  | _ => cases asks

theorem Paced.step {event : Event} {task : Task} (step : DhtNode.Step C s event t) (own : event.task? = some i)
    (here : s.tasks.get i = some task) (paced : Paced s log task) (distinct : s.kad.Distinct) :
    ∃ next, t.tasks.get i = some next ∧ Paced t (log ++ [task.asks]) next := by
  cases step with
  | receive => cases own
  | start free =>
    cases own
    rw [here] at free
    cases free
  | @advance _ j task' there step =>
    obtain rfl : j = i := Option.some.inj own
    obtain rfl : task = task' := Option.some.inj (here.symm.trans there)
    obtain ⟨u, next, move, rfl⟩ := DhtNode.advance_cases step
    refine ⟨next, Table.get_insert_self .., ?_⟩
    have longer : (log ++ [task.asks]).length = log.length + 1 := List.length_append
    cases move with
    | start =>
      obtain rfl : log = [] := paced
      exact Paced.enter rfl List.nodup_nil (by simp) (distinct.closest _ _) _
    | @converged caller l ended _ =>
      obtain ⟨sofar, short⟩ := paced
      rw [if_pos ended] at short
      have silent : Task.asks (.lookup caller l) = none := by simp [Task.asks, ended]
      rw [silent] at longer ⊢
      refine ⟨sofar.idle.nodup, ?_⟩
      rw [sofar.idle.all]
      omega
    | @round caller l ended _ =>
      obtain ⟨sofar, short⟩ := paced
      rw [if_pos ended] at short
      have silent : Task.asks (.lookup caller l) = none := by simp [Task.asks, ended]
      rw [silent] at longer ⊢
      have once : l.queried.Nodup := sofar.all ▸ sofar.nodup
      have within : (log ++ [(none : Option NodeId)]).length ≤ 4 * l.queried.length + 1 := by omega
      exact Paced.enter (l := { l with closestSeen := s.kad.closest l.key k }) sofar.idle.all once within
        (distinct.closest _ _) caller
    | @got _ rx resume msg =>
      cases resume with
      | calls => exact paced.elim
      | lookup caller l => exact Paced.reply paced.1 paced.2.1 caller (some msg)
    | @closed _ rx resume =>
      cases resume with
      | calls => exact paced.elim
      | lookup caller l => exact Paced.reply paced.1 paced.2.1 caller none
    | @expired _ resume | @merging _ resume =>
      cases resume with
      | calls => exact paced.elim
      | lookup caller l =>
        obtain ⟨sofar, short⟩ := paced
        exact ⟨sofar.idle, Nat.le_add_right_of_le (by omega)⟩
    | found | notFound =>
      obtain ⟨once, short⟩ := paced
      change Paced _ (log ++ [none]) (.routed _ _)
      refine ⟨?_, ?_⟩
      · rwa [asked_append_none]
      · rw [asked_append_none, List.length_append, List.length_singleton]
        omega
    | cached | uncached | stored | unstored => exact paced.elim
  | @call j task' addr msg resume there asks =>
    obtain rfl : j = i := Option.some.inj own
    obtain rfl : task = task' := Option.some.inj (here.symm.trans there)
    obtain ⟨caller, l, rfl, sofar, short⟩ := Task.call_lookup paced asks
    refine ⟨_, Table.get_insert_self .., sofar, short, ?_⟩
    rw [DhtNode.put, s.openAt_empty addr]
    rfl
  | @fail j task' addr msg resume there asks =>
    obtain rfl : j = i := Option.some.inj own
    obtain rfl : task = task' := Option.some.inj (here.symm.trans there)
    obtain ⟨caller, l, rfl, sofar, short⟩ := Task.call_lookup paced asks
    exact ⟨_, Table.get_insert_self .., sofar, by omega⟩
  | @expire j addr rx resume there waits =>
    obtain rfl : j = i := Option.some.inj own
    obtain rfl : task = .waiting addr rx resume := Option.some.inj (here.symm.trans there)
    refine ⟨_, Table.get_insert_self .., ?_⟩
    cases resume with
    | calls => exact paced.elim
    | lookup caller l =>
      obtain ⟨sofar, short, -⟩ := paced
      have longer : (log ++ [(none : Option NodeId)]).length = log.length + 1 := List.length_append
      refine ⟨sofar.idle, ?_⟩
      change (log ++ [(none : Option NodeId)]).length + 1 ≤ _
      omega

theorem channels_stay {event : Event} (step : DhtNode.Step C s event t) {rx : ReplyTx} (there : (s.channels.get rx).isSome) :
    (t.channels.get rx).isSome := by
  have grows (tx : ReplyTx) (state : Rx) (channels : Table ReplyTx Rx) (old : (channels.get rx).isSome) :
      ((channels.insert tx state).get rx).isSome := by
    rw [Table.get_insert]
    split
    · rfl
    · exact old
  have closes (addr : SocketAddr) : ((s.closeAt addr).channels.get rx).isSome := by
    rw [DhtNode.channels_closeAt]
    split
    · rfl
    · exact there
  have opens (addr : SocketAddr) : ((s.openAt addr).channels.get rx).isSome := grows _ _ _ (closes addr)
  cases step with
  | receive src data =>
    generalize received : s.receive C src data = t
    have move : DhtNode.Receive C s src data t := received ▸ DhtNode.receive_cases C s src data
    cases move with
    | reply => exact grows _ _ _ there
    | _ => exact there
  | start => exact there
  | advance _ step =>
    obtain ⟨u, next, move, rfl⟩ := DhtNode.advance_cases step
    cases move with
    | expired => exact closes _
    | _ => exact there
  | call => exact opens _
  | fail => exact opens _
  | expire => exact there

theorem Paced.other {event : Event} {task : Task} (step : DhtNode.Step C s event t) (paced : Paced s log task) : Paced t log task := by
  cases task with
  | waiting addr rx resume =>
    cases resume with
    | calls => exact paced
    | lookup caller l => exact ⟨paced.1, paced.2.1, channels_stay step paced.2.2⟩
  | expired addr resume => cases resume <;> exact paced
  | merging contacts resume => cases resume <;> exact paced
  | _ => exact paced

end Steps

/-! ## Over a run -/

theorem length_le_of_nodup {names : List NodeId} (once : names.Nodup) : names.length ≤ 256 ^ 20 := by
  have values : (names.map fun name => leValue name.bytes).Nodup := by
    refine once.map fun a b same => Octets.ext ?_
    have left := leBytes_leValue a.bytes
    have right := leBytes_leValue b.bytes
    rw [a.size] at left
    rw [b.size] at right
    rw [← left, ← right]
    exact congrArg (leBytes 20) same
  have inside : (names.map fun name => leValue name.bytes).toFinset ⊆ Finset.range (256 ^ 20) := by
    intro value member
    obtain ⟨name, -, rfl⟩ := List.mem_map.mp (List.mem_toFinset.mp member)
    have bound := leValue_lt name.bytes
    rw [name.size] at bound
    exact Finset.mem_range.mpr bound
  have few := Finset.card_le_card inside
  rwa [List.toFinset_card_of_nodup values, List.length_map, Finset.card_range] at few

theorem Paced.result {s : DhtNode} {log : List (Option NodeId)} {task : Task} (paced : Paced s log task) :
    (asked log).Nodup ∧ log.length ≤ 4 * (asked log).length + 2 := by
  cases task with
  | start =>
    obtain rfl : log = [] := paced
    exact ⟨List.nodup_nil, Nat.zero_le _⟩
  | lookup caller l =>
    obtain ⟨sofar, short⟩ := paced
    refine ⟨sofar.nodup, ?_⟩
    rw [sofar.all]
    split at short <;> omega
  | waiting addr rx resume =>
    cases resume with
    | calls => exact paced.elim
    | lookup caller l =>
      obtain ⟨sofar, short, -⟩ := paced
      refine ⟨sofar.nodup, ?_⟩
      rw [sofar.all]
      omega
  | expired _ resume | merging _ resume =>
    cases resume with
    | calls => exact paced.elim
    | lookup caller l =>
      obtain ⟨sofar, short⟩ := paced
      refine ⟨sofar.nodup, ?_⟩
      rw [sofar.all]
      omega
  | found => exact ⟨paced.1, Nat.le_succ_of_le paced.2⟩
  | routed => exact paced
  | routeCache | routeStore | calls => exact paced.elim

/-- A lookup that is not over can always take a step: a reply is there, or the time may run out. -/
theorem Paced.moves {s : DhtNode} {log : List (Option NodeId)} {i : Nat} {task : Task} (paced : Paced s log task)
    (here : s.tasks.get i = some task) : task.Over ∨ ∃ event t, event.task? = some i ∧ DhtNode.Step C s event t := by
  have advances (ready : (s.advance i task).isSome) : ∃ event t, event.task? = some i ∧ DhtNode.Step C s event t :=
    have ⟨t, step⟩ := Option.isSome_iff_exists.mp ready
    ⟨.advance i, t, rfl, .advance here step⟩
  cases task with
  | start => exact .inr (advances rfl)
  | lookup caller l =>
    right
    cases next : l.batch with
    | nil =>
      by_cases converged : l.converged (s.kad.closest l.key k) = true
      · exact advances (by simp only [DhtNode.advance, next, converged, if_true, Option.isSome_some])
      · exact advances (by simp only [DhtNode.advance, next, converged, if_false, Bool.false_eq_true, Option.isSome_some])
    | cons c batch =>
      have asks : Task.call? (.lookup caller l) = some (c.addr, .find l.key l.wantValue,
          .lookup caller { l with queried := l.queried ++ [c.nodeId], batch }) := by simp only [Task.call?, next]
      exact ⟨.call i, _, rfl, .call here asks⟩
  | waiting addr rx resume =>
    cases resume with
    | calls => exact paced.elim
    | lookup caller l =>
      right
      obtain ⟨state, open_⟩ := Option.isSome_iff_exists.mp paced.2.2
      cases state with
      | empty => exact ⟨.expire i, _, rfl, .expire here open_⟩
      | got msg => exact advances (by simp only [DhtNode.advance, open_, Option.isSome_some])
      | closed => exact advances (by simp only [DhtNode.advance, open_, Option.isSome_some])
  | expired addr resume => exact .inr (advances rfl)
  | merging contacts resume => exact .inr (advances rfl)
  | found caller key result =>
    cases caller with
    | direct => exact .inl trivial
    | route => cases result <;> exact .inr (advances rfl)
  | routed => exact .inl trivial
  | routeCache | routeStore | calls => exact paced.elim

/-- A lookup that starts at any table without duplicates, whatever is answered or not, and whatever all other tasks and
datagrams do meanwhile. It asks no id twice, so no more than there are; it has taken at most four steps for each id it
has asked, and two; and until its call has returned it can take another. -/
theorem lookup_asks_once {s : DhtNode} (distinct : s.kad.Distinct) {i : Nat} {caller : Caller} {key : NodeId} {wantValue : Bool}
    (begins : s.tasks.get i = some (.start caller key wantValue)) {events : List Event} {t : DhtNode}
    {log : List (Option NodeId)} (run : Run (Logged (DhtNode.Step C) (moves i)) (s, []) events (t, log)) :
    (asked log).Nodup ∧ (asked log).length ≤ 256 ^ 20 ∧ log.length ≤ 4 * (asked log).length + 2 ∧
      ∃ task, t.tasks.get i = some task ∧ (task.Over ∨ ∃ event u, event.task? = some i ∧ DhtNode.Step C t event u) := by
  have fresh : Paced s [] (.start caller key wantValue) := rfl
  have kept := run.invariant
    (fun a => a.1.kad.Distinct ∧ ∃ task, a.1.tasks.get i = some task ∧ Paced a.1 a.2 task) ?_ ⟨distinct, _, begins, fresh⟩
  · obtain ⟨-, task, here, paced⟩ := kept
    obtain ⟨once, short⟩ := paced.result
    exact ⟨once, length_le_of_nodup once, short, task, here, paced.moves here⟩
  · rintro ⟨u, old⟩ event ⟨v, new⟩ ⟨distinct, task, here, paced⟩ ⟨step, logged⟩
    dsimp only at step logged distinct here paced ⊢
    subst logged
    refine ⟨step.distinct distinct, ?_⟩
    by_cases own : event.task? = some i
    · rw [moves, if_pos own, here]
      exact Paced.step step own here paced distinct
    · rw [moves, if_neg own, List.append_nil]
      exact ⟨task, (step.other_task own).trans here, paced.other step⟩

namespace Transparent

open Nbf.Crypto.Transparent

/-- A lookup at a node with two contacts: neither of them answers, and each is asked once. -/
theorem asker_asks_once : ∃ events t log, Run (Logged (DhtNode.Step crates) (moves 0))
      (asker.put 0 (.start .direct wanted false), []) events (t, log) ∧ asked log = [known.nodeId, own.nodeId] ∧
      (asked log).Nodup := by
  let s := asker.put 0 (.start .direct wanted false)
  let l : Lookup := ⟨wanted, false, [known, own], [], [known, own]⟩
  let asking : Resume := .lookup .direct { l with queried := [known.nodeId], batch := [own] }
  have begins : s.tasks.get 0 = some (.start .direct wanted false) := Table.get_insert_self ..
  have distinct : s.kad.Distinct := by
    have apart : own.nodeId ≠ known.nodeId := by decide
    have table : s.kad.rt.map (·.nodeId) = [own.nodeId, known.nodeId] := rfl
    rw [Kademlia.Distinct, table]
    simpa using apart
  have enters : s.advance 0 (.start .direct wanted false) = some (s.put 0 (.lookup .direct l)) := by
    have near : s.kad.closest wanted k = [known, own] := asker_closest (by decide)
    simp only [DhtNode.advance, near]
    rfl
  have logged {t u : DhtNode} {event : Event} {task : Task} (step : DhtNode.Step crates t event u)
      (mine : event.task? = some 0) (here : t.tasks.get 0 = some task) (log : List (Option NodeId)) :
      Logged (DhtNode.Step crates) (moves 0) (t, log) event (u, log ++ [task.asks]) :=
    ⟨step, by simp [moves, mine, here]⟩
  let looking := s.put 0 (.lookup .direct l)
  let waits := { looking.openAt known.addr with sent := looking.sent ++ Kademlia.sendRaw known.addr (.find wanted false) }.put 0
    (.waiting known.addr looking.nextTx asking)
  let gone := waits.put 0 (.expired known.addr asking)
  let back := (gone.removeAt known.addr).put 0 (asking.reply none)
  have empty : waits.channels.get looking.nextTx = some .empty := by
    have opened : (looking.openAt known.addr).channels.get looking.nextTx = some .empty := by
      rw [DhtNode.openAt, DhtNode.nextTx_closeAt]
      exact Table.get_insert_self ..
    exact opened
  have asks : DhtNode.Step crates looking (.call 0) waits := .call (Table.get_insert_self ..) rfl
  have expires : DhtNode.Step crates waits (.expire 0) gone := .expire (Table.get_insert_self ..) empty
  have removes : DhtNode.Step crates gone (.advance 0) back := .advance (Table.get_insert_self ..) rfl
  have again := DhtNode.Step.call (C := crates) (s := back) (i := 0) (Table.get_insert_self ..) rfl
  have run := Run.single (logged (.advance begins enters) rfl begins [])
    |>.snoc (logged asks rfl (Table.get_insert_self ..) _)
    |>.snoc (logged expires rfl (Table.get_insert_self ..) _)
    |>.snoc (logged removes rfl (Table.get_insert_self ..) _)
    |>.snoc (logged again rfl (Table.get_insert_self ..) _)
  exact ⟨_, _, _, run, rfl, (lookup_asks_once distinct begins run).1⟩

end Transparent
end Nbf.Dht

import Nbf.Library.Lists
import Nbf.Dht.Steps

/-! Which nodes a lookup asks, of all that it hears of. -/

set_option autoImplicit false

namespace Nbf.Dht

open Nbf.Library Nbf.Crypto Nbf.Net

inductive Note where
  /-- It looks for the contacts nearest to the key in the routing table. -/
  | round
  | heard (contacts : List Contact)
  /-- A FIND has gone to the node with this id. -/
  | asked (id : NodeId)
  /-- The socket did not take the FIND for the node with this id. -/
  | refused (id : NodeId)

def Note.contacts : Note → List Contact
  | .heard contacts => contacts
  | _ => []

def knownIds (rt : List Contact) (log : List Note) : Finset NodeId := ids (rt ++ log.flatMap Note.contacts)

def Task.notes (s : DhtNode) (event : Event) : Task → List Note
  | .start _ _ _ => [.round]
  | .lookup _ l =>
    match event with
    | .call _ => (l.batch.take 1).map fun c => .asked c.nodeId
    | .fail _ => (l.batch.take 1).map fun c => .refused c.nodeId
    | _ => [.round]
  | .waiting _ rx (.lookup _ _) =>
    match event, s.channels.get rx with
    | .advance _, some (.got (.found contacts _)) => [.heard contacts]
    | _, _ => []
  | _ => []

def notes (i : Nat) (s : DhtNode) (event : Event) : List Note :=
  match s.tasks.get i with
  | some task => if event.task? = some i then task.notes s event else []
  | none => []

def Alone (i : Nat) (before : DhtNode × List Note) (event : Event) (after : DhtNode × List Note) : Prop :=
  event.task? = some i ∨ after.1.kad.rt = before.1.kad.rt

/-- When the lookup last looked, or before, the table of the node `id` had room for `x`: it was
among the 64 ids nearest to `id` of all that were known by then. -/
def Kept (id : NodeId) (rt : List Contact) (log : List Note) (x : NodeId) : Prop :=
  ∃ before after, log = before ++ .round :: after ∧ x ∈ nearest (dist · id) 64 (knownIds rt before)

def Seen (id key : NodeId) (rt : List Contact) (log : List Note) (x : NodeId) : Prop :=
  ∃ before after, log = before ++ .round :: after ∧
    x ∈ nearest (dist · key) k (nearest (dist · id) 64 (knownIds rt before))

theorem knownIds_append (rt : List Contact) (log : List Note) (note : Note) :
    knownIds rt (log ++ [note]) = knownIds rt log ∪ ids note.contacts := by
  simp [knownIds, Finset.union_assoc]

theorem knownIds_grow (rt : List Contact) (before after : List Note) : knownIds rt before ⊆ knownIds rt (before ++ after) := by
  simp only [knownIds, List.flatMap_append, ids_append]
  exact Finset.union_subset_union_right Finset.subset_union_left

theorem seen_iff_kept {id key : NodeId} {rt : List Contact} {log : List Note} {x : NodeId}
    (near : x ∈ nearest (dist · key) k (knownIds rt log)) : Seen id key rt log x ↔ Kept id rt log x := by
  constructor
  · rintro ⟨before, after, cut, among⟩
    exact ⟨before, after, cut, nearest_subset _ _ _ among⟩
  · rintro ⟨before, after, cut, among⟩
    refine ⟨before, after, cut, mem_nearest_of_subset ?_ among near⟩
    rw [cut]
    exact (nearest_subset _ _ _).trans (knownIds_grow rt before _)

theorem seen_append_round {id key : NodeId} {rt : List Contact} {log : List Note} {x : NodeId} :
    Seen id key rt (log ++ [.round]) x ↔
      Seen id key rt log x ∨ x ∈ nearest (dist · key) k (nearest (dist · id) 64 (knownIds rt log)) := by
  unfold Seen
  rw [exists_split_snoc]
  simp

theorem seen_append_other {id key : NodeId} {rt : List Contact} {log : List Note} {note : Note} {x : NodeId}
    (other : note ≠ .round) : Seen id key rt (log ++ [note]) x ↔ Seen id key rt log x := by
  unfold Seen
  rw [exists_split_snoc]
  simp [other]

section

variable (id key : NodeId) (rt : List Contact) (log : List Note)

structure Told : Prop where
  seen : ∀ x, Seen id key rt log x ↔ .asked x ∈ log ∨ .refused x ∈ log
  once : ∀ x, .asked x ∈ log → .refused x ∉ log

/-- The locals of a lookup, as its notes have them. -/
structure Tracks (l : Lookup) : Prop where
  sameKey : l.key = key
  queried : ∀ x, x ∈ l.queried ↔ .asked x ∈ log ∨ .refused x ∈ log
  once : ∀ x, .asked x ∈ log → .refused x ∉ log
  fresh : ∀ c ∈ l.batch, c.nodeId ∉ l.queried
  nodup : (l.batch.map (·.nodeId)).Nodup
  current : ∀ c ∈ l.closestSeen, c.nodeId ∈ l.queried ∨ c.nodeId ∈ ids l.batch
  seen : ∀ x, Seen id key rt log x ↔ x ∈ l.queried ∨ x ∈ ids l.batch

structure Covers (s : DhtNode) (contacts : List Contact) : Prop where
  arranged : s.kad.Arranged
  sameId : s.kad.id = id
  covered : nearest (dist · id) 64 (ids s.kad.rt ∪ ids contacts) = nearest (dist · id) 64 (knownIds rt log)

/-- How a lookup stands to its notes, by the place where its task is. -/
def Follows (s : DhtNode) : Task → Prop
  | .start _ key' _ => key' = key ∧ log = [] ∧ Covers id rt log s []
  | .lookup _ l => Tracks id key rt log l ∧ Covers id rt log s []
  | .waiting _ _ (.lookup _ l) => Tracks id key rt log l ∧ Covers id rt log s []
  | .expired _ (.lookup _ l) => Tracks id key rt log l ∧ Covers id rt log s []
  | .merging contacts (.lookup _ l) => Tracks id key rt log l ∧ Covers id rt log s contacts
  | .found _ _ none => Told id key rt log
  | .found _ _ (some _) => True
  | .routed _ _ => True
  | _ => False

end

variable {id key : NodeId} {rt : List Contact} {log : List Note}

theorem Tracks.heard {l : Lookup} (tracks : Tracks id key rt log l) (contacts : List Contact) :
    Tracks id key rt (log ++ [.heard contacts]) l where
  sameKey := tracks.sameKey
  queried x := by simpa using tracks.queried x
  once x := by simpa using tracks.once x
  fresh := tracks.fresh
  nodup := tracks.nodup
  current := tracks.current
  seen x := (seen_append_other (by simp)).trans (tracks.seen x)

theorem Tracks.call {l : Lookup} (tracks : Tracks id key rt log l) {c : Contact} {batch : List Contact}
    (next : l.batch = c :: batch) {note : Note} (asks : note = .asked c.nodeId ∨ note = .refused c.nodeId) :
    Tracks id key rt (log ++ [note]) { l with queried := l.queried ++ [c.nodeId], batch } := by
  have new := tracks.fresh c (next ▸ List.mem_cons_self)
  have nodup := tracks.nodup
  rw [next, List.map_cons, List.nodup_cons] at nodup
  have batch_ids : ∀ x, x ∈ ids l.batch ↔ x = c.nodeId ∨ x ∈ ids batch := by
    intro x
    rw [next]
    simp [eq_comm]
  have none := not_or.mp (mt (tracks.queried c.nodeId).mpr new)
  refine ⟨tracks.sameKey, ?_, ?_, ?_, nodup.2, ?_, ?_⟩
  · intro x
    rw [List.mem_append, tracks.queried, List.mem_singleton]
    rcases asks with rfl | rfl <;> simp <;> tauto
  · intro x
    have before := tracks.once x
    rcases asks with rfl | rfl
    · simp only [List.mem_append, List.mem_singleton, Note.asked.injEq, reduceCtorEq, or_false]
      rintro (old | rfl)
      · exact before old
      · exact none.2
    · simp only [List.mem_append, List.mem_singleton, Note.refused.injEq, reduceCtorEq, or_false]
      rintro old (refused | rfl)
      · exact before old refused
      · exact none.1 old
  · intro d member
    rw [List.mem_append, List.mem_singleton]
    rintro (old | same)
    · exact tracks.fresh d (next ▸ List.mem_cons_of_mem c member) old
    · exact nodup.1 (same ▸ List.mem_map_of_mem member)
  · intro d member
    have before := tracks.current d member
    rw [batch_ids] at before
    rw [List.mem_append, List.mem_singleton]
    tauto
  · intro x
    rw [seen_append_other (by rcases asks with rfl | rfl <;> simp), tracks.seen x, batch_ids, List.mem_append, List.mem_singleton]
    tauto

theorem knownIds_same {note : Note} (nothing : note.contacts = []) : knownIds rt (log ++ [note]) = knownIds rt log := by
  rw [knownIds_append, nothing]
  exact Finset.union_empty _

namespace Covers

variable {C : Crates} {s t : DhtNode} {contacts : List Contact}

theorem note (covers : Covers id rt log s contacts) {note : Note} (nothing : note.contacts = []) :
    Covers id rt (log ++ [note]) s contacts :=
  ⟨covers.arranged, covers.sameId, by rw [knownIds_same nothing, covers.covered]⟩

theorem heard (covers : Covers id rt log s []) (contacts : List Contact) : Covers id rt (log ++ [.heard contacts]) s contacts := by
  have all := covers.covered
  refine ⟨covers.arranged, covers.sameId, ?_⟩
  rw [show ids ([] : List Contact) = ∅ from rfl, Finset.union_empty] at all
  rw [knownIds_append, ← nearest_absorb, all, nearest_absorb]
  rfl

theorem ids_rt (covers : Covers id rt log s []) : ids s.kad.rt = nearest (dist · id) 64 (knownIds rt log) := by
  rw [← covers.covered, show ids ([] : List Contact) = ∅ from rfl, Finset.union_empty, covers.arranged.nearest_ids]

theorem of_kad (covers : Covers id rt log s contacts) (same : t.kad = s.kad) : Covers id rt log t contacts :=
  ⟨same ▸ covers.arranged, same ▸ covers.sameId, same ▸ covers.covered⟩

theorem step (covers : Covers id rt log s contacts) {event : Event} (step : DhtNode.Step C s event t)
    (same : t.kad.rt = s.kad.rt) : Covers id rt log t contacts :=
  ⟨step.arranged covers.arranged, step.id_ownDesc.1.trans covers.sameId, by rw [same, covers.covered]⟩

theorem merge (covers : Covers id rt log s contacts) (merged : t.kad = s.kad.tryMerge contacts) : Covers id rt log t [] := by
  have arranged := covers.arranged.tryMerge contacts
  refine ⟨merged ▸ arranged, by rw [merged, ← covers.sameId]; rfl, ?_⟩
  rw [show ids ([] : List Contact) = ∅ from rfl, Finset.union_empty, merged, ← covers.covered, covers.arranged.ids_tryMerge,
    covers.sameId]
  exact nearest_of_card_le (card_nearest (dist_injective id) 64 _ ▸ Nat.min_le_left _ _)

theorem ids_closest (covers : Covers id rt log s []) :
    ids (s.kad.closest key k) = nearest (dist · key) k (nearest (dist · id) 64 (knownIds rt log)) := by
  rw [covers.arranged.ids_closest, covers.ids_rt]

end Covers

theorem Follows.imp {s t : DhtNode} {task : Task} (follows : Follows id key rt log s task)
    (imp : ∀ contacts, Covers id rt log s contacts → Covers id rt log t contacts) : Follows id key rt log t task := by
  cases task with
  | start => exact ⟨follows.1, follows.2.1, imp _ follows.2.2⟩
  | lookup => exact ⟨follows.1, imp _ follows.2⟩
  | waiting addr rx resume =>
    cases resume with
    | calls => exact follows
    | lookup => exact ⟨follows.1, imp _ follows.2⟩
  | expired _ resume | merging _ resume =>
    cases resume with
    | calls => exact follows
    | lookup => exact ⟨follows.1, imp _ follows.2⟩
  | found caller key' result => cases result <;> exact follows
  | routed | routeCache | routeStore | calls => exact follows

theorem Lookup.enter_cases (caller : Caller) (l : Lookup) :
    Lookup.enter caller l = .found caller l.key none ∨ ∃ batch, Lookup.enter caller l = .lookup caller { l with batch } := by
  unfold Lookup.enter
  split
  · exact .inl rfl
  · exact .inr ⟨_, rfl⟩

theorem Lookup.converged_self (l : Lookup) : l.converged l.closestSeen = true :=
  decide_eq_true ⟨rfl, fun c member => ⟨c, member, rfl⟩⟩

theorem Follows.enter {s : DhtNode} {l : Lookup} (covers : Covers id rt log s []) (sameKey : l.key = key)
    (queried : ∀ x, x ∈ l.queried ↔ .asked x ∈ log ∨ .refused x ∈ log) (once : ∀ x, .asked x ∈ log → .refused x ∉ log)
    (seen : ∀ x, Seen id key rt log x ↔ x ∈ l.queried) (looked : l.closestSeen = s.kad.closest key k) (caller : Caller) :
    Follows id key rt (log ++ [.round]) s (Lookup.enter caller l) := by
  have few : (l.closestSeen.filter fun c => c.nodeId ∉ l.queried).length ≤ alpha := by
    apply (List.length_filter_le _ _).trans
    rw [looked, Kademlia.closest]
    exact List.length_take_le _ _
  have now : ∀ x, Seen id key rt (log ++ [.round]) x ↔ x ∈ l.queried ∨ x ∈ ids l.closestSeen := fun x => by
    rw [seen_append_round, seen, looked, covers.ids_closest]
  have queried' : ∀ x, x ∈ l.queried ↔ Note.asked x ∈ log ++ [.round] ∨ Note.refused x ∈ log ++ [.round] := fun x => by
    simpa using queried x
  have once' : ∀ x, Note.asked x ∈ log ++ [.round] → Note.refused x ∉ log ++ [.round] := fun x => by
    simpa using once x
  unfold Lookup.enter
  rw [List.take_of_length_le few]
  split
  next all =>
    refine ⟨fun x => ?_, once'⟩
    rw [now, ← queried']
    refine or_iff_left_of_imp fun member => ?_
    obtain ⟨c, there, rfl⟩ := mem_ids.mp member
    by_contra fresh
    have left : c ∈ l.closestSeen.filter fun c => c.nodeId ∉ l.queried := List.mem_filter.mpr ⟨there, decide_eq_true fresh⟩
    rw [all] at left
    cases left
  next =>
    refine ⟨⟨sameKey, queried', once', ?_, ?_, ?_, ?_⟩, covers.note rfl⟩
    · exact fun c member => of_decide_eq_true (List.mem_filter.mp member).2
    · have nodup : (l.closestSeen.map (·.nodeId)).Nodup := by
        rw [looked, Kademlia.closest]
        exact ((sortByDist_ascending key covers.arranged.ascending.nodup).take k).nodup
      exact nodup.sublist (List.filter_sublist.map _)
    · intro c member
      by_cases fresh : c.nodeId ∈ l.queried
      · exact .inl fresh
      · exact .inr (mem_ids.mpr ⟨c, List.mem_filter.mpr ⟨member, decide_eq_true fresh⟩, rfl⟩)
    · intro x
      rw [now]
      by_cases fresh : x ∈ l.queried
      · simp [fresh]
      · simp only [fresh, false_or, mem_ids, List.mem_filter, decide_eq_true_eq]
        constructor
        · rintro ⟨c, member, rfl⟩
          exact ⟨c, ⟨member, fresh⟩, rfl⟩
        · rintro ⟨c, ⟨member, -⟩, rfl⟩
          exact ⟨c, member, rfl⟩

theorem Tracks.converge {s : DhtNode} {l : Lookup} (tracks : Tracks id key rt log l) (covers : Covers id rt log s [])
    (ended : l.batch = []) (converged : l.converged (s.kad.closest l.key k)) : Told id key rt (log ++ [.round]) := by
  have all : ∀ x, x ∉ ids l.batch := by
    rw [ended]
    simp
  refine ⟨fun x => ?_, fun x => by simpa using tracks.once x⟩
  rw [seen_append_round, tracks.seen, ← covers.ids_closest]
  have same : (Note.asked x ∈ log ++ [.round] ∨ Note.refused x ∈ log ++ [.round]) ↔ x ∈ l.queried := by
    simpa using (tracks.queried x).symm
  rw [same, or_iff_left (all x)]
  refine or_iff_left_of_imp fun member => ?_
  obtain ⟨c, there, rfl⟩ := mem_ids.mp member
  obtain ⟨o, before, named⟩ := (of_decide_eq_true converged).2 c (tracks.sameKey ▸ there)
  rw [← named]
  exact (tracks.current o before).resolve_right (all _)

namespace DhtNode

variable {C : Crates} {s t : DhtNode} {i : Nat}

theorem advance_looks {caller : Caller} {l : Lookup} (covers : Covers id rt log s []) (sameKey : l.key = key)
    (queried : ∀ x, x ∈ l.queried ↔ .asked x ∈ log ∨ .refused x ∈ log) (once : ∀ x, .asked x ∈ log → .refused x ∉ log)
    (seen : ∀ x, Seen id key rt log x ↔ x ∈ l.queried) (looked : l.closestSeen = s.kad.closest l.key k) :
    ∃ next, (s.put i (Lookup.enter caller l)).tasks.get i = some next ∧
      Follows id key rt (log ++ [.round]) (s.put i (Lookup.enter caller l)) next := by
  have begun := Follows.enter covers sameKey queried once seen (looked.trans (congrArg (s.kad.closest · k) sameKey)) caller
  exact ⟨_, Table.get_insert_self .., begun.imp fun _ covers => covers.of_kad rfl⟩

theorem follows_reply {caller : Caller} {l : Lookup} {addr : SocketAddr} {rx : ReplyTx} {msg : RpcMsg}
    (tracks : Tracks id key rt log l) (covers : Covers id rt log s []) (got : s.channels.get rx = some (.got msg)) :
    Follows id key rt (log ++ Task.notes s (.advance i) (.waiting addr rx (.lookup caller l)))
      (s.put i (Resume.reply (.lookup caller l) (some msg))) (Resume.reply (.lookup caller l) (some msg)) := by
  cases msg with
  | ping | pong | store | find =>
    simp only [Task.notes, got, List.append_nil]
    exact ⟨tracks, covers.of_kad rfl⟩
  | found contacts value =>
    simp only [Task.notes, got]
    have goesOn (next : Task) : Follows id key rt (log ++ [.heard contacts]) (s.put i next)
        (.merging contacts (.lookup caller l)) := ⟨tracks.heard contacts, (covers.heard contacts).of_kad rfl⟩
    cases wantValue : l.wantValue with
    | false => simpa only [Resume.reply, wantValue] using goesOn _
    | true =>
      cases value with
      | none => simpa only [Resume.reply, wantValue] using goesOn _
      | some d => simp only [Resume.reply, wantValue, Follows]

theorem advance_follows {task : Task} (follows : Follows id key rt log s task) (step : s.advance i task = some t) :
    ∃ next, t.tasks.get i = some next ∧ Follows id key rt (log ++ task.notes s (.advance i)) t next := by
  obtain ⟨u, next, move, rfl⟩ := advance_cases step
  cases move with
  | start =>
    obtain ⟨sameKey, rfl, covers⟩ := follows
    exact advance_looks covers sameKey (by simp) (by simp) (by simp [Seen]) rfl
  | converged ended converged =>
    exact ⟨_, Table.get_insert_self .., Tracks.converge follows.1 follows.2 ended converged⟩
  | @round caller l ended _ =>
    obtain ⟨tracks, covers⟩ := follows
    have seen : ∀ x, Seen id key rt log x ↔ x ∈ l.queried := fun x => by simpa [ended, ids] using tracks.seen x
    exact advance_looks covers tracks.sameKey tracks.queried tracks.once seen rfl
  | @got addr rx resume msg got =>
    cases resume with
    | calls msg todo => exact follows.elim
    | lookup caller l => exact ⟨_, Table.get_insert_self .., follows_reply follows.1 follows.2 got⟩
  | @closed addr rx resume closed =>
    cases resume with
    | calls msg todo => exact follows.elim
    | lookup caller l =>
      refine ⟨_, Table.get_insert_self .., ?_⟩
      simp only [Task.notes, closed, List.append_nil]
      exact ⟨follows.1, follows.2.of_kad rfl⟩
  | @expired addr resume =>
    cases resume with
    | calls msg todo => exact follows.elim
    | lookup caller l =>
      obtain ⟨tracks, covers⟩ := follows
      have kept : Covers id rt log (s.removeAt addr) [] :=
        ⟨⟨covers.arranged.named, covers.arranged.own, covers.arranged.ascending, covers.arranged.short⟩, covers.sameId, covers.covered⟩
      exact ⟨_, Table.get_insert_self .., (List.append_nil log).symm ▸ ⟨tracks, kept.of_kad rfl⟩⟩
  | @merging contacts resume =>
    cases resume with
    | calls msg todo => exact follows.elim
    | lookup caller l =>
      exact ⟨_, Table.get_insert_self .., (List.append_nil log).symm ▸ ⟨follows.1, follows.2.merge rfl⟩⟩
  | found | notFound => exact ⟨_, Table.get_insert_self .., trivial⟩
  | cached | uncached | stored | unstored => exact follows.elim

theorem follows_call {task : Task} {addr : SocketAddr} {msg : RpcMsg} {resume : Resume} (follows : Follows id key rt log s task)
    (asks : task.call? = some (addr, msg, resume)) :
    ∃ caller l c batch, task = .lookup caller l ∧ l.batch = c :: batch ∧
      resume = .lookup caller { l with queried := l.queried ++ [c.nodeId], batch } ∧
      Tracks id key rt log l ∧ Covers id rt log s [] := by
  cases task with
  | lookup caller l =>
    simp only [Task.call?] at asks
    split at asks
    next => cases asks
    next c batch next =>
      cases asks
      exact ⟨caller, l, c, batch, rfl, next, rfl, follows⟩
  | calls | routeCache | routeStore => exact follows.elim
  | start | waiting | expired | merging | found | routed => cases asks

theorem Step.follows {event : Event} {task : Task} (step : Step C s event t) (own : event.task? = some i)
    (here : s.tasks.get i = some task) (follows : Follows id key rt log s task) :
    ∃ next, t.tasks.get i = some next ∧ Follows id key rt (log ++ task.notes s event) t next := by
  have covered := fun contacts (covers : Covers id rt log s contacts) (same : t.kad.rt = s.kad.rt) => covers.step step same
  cases step with
  | receive src data => cases own
  | start empty initial =>
    cases own
    rw [empty] at here
    cases here
  | advance here' step =>
    cases own
    cases here'.symm.trans here
    exact advance_follows follows step
  | call here' asks =>
    cases own
    cases here'.symm.trans here
    obtain ⟨caller, l, c, batch, rfl, next, rfl, tracks, covers⟩ := follows_call follows asks
    refine ⟨_, Table.get_insert_self .., ?_⟩
    simp only [Task.notes, next, List.take_succ_cons, List.take_zero, List.map_singleton]
    exact ⟨tracks.call next (.inl rfl), (covered [] covers (s.openAt_same _).rt).note rfl⟩
  | fail here' asks =>
    cases own
    cases here'.symm.trans here
    obtain ⟨caller, l, c, batch, rfl, next, rfl, tracks, covers⟩ := follows_call follows asks
    refine ⟨_, Table.get_insert_self .., ?_⟩
    simp only [Task.notes, next, List.take_succ_cons, List.take_zero, List.map_singleton]
    exact ⟨tracks.call next (.inr rfl), (covered [] covers (s.openAt_same _).rt).note rfl⟩
  | @expire i addr rx resume here' empty =>
    cases own
    cases here'.symm.trans here
    cases resume with
    | calls msg todo => exact follows.elim
    | lookup caller l =>
      obtain ⟨tracks, covers⟩ := follows
      refine ⟨_, Table.get_insert_self .., ?_⟩
      simp only [Task.notes, List.append_nil]
      exact ⟨tracks, covered [] covers rfl⟩

theorem notes_own {task : Task} {event : Event} (here : s.tasks.get i = some task) (own : event.task? = some i) :
    notes i s event = task.notes s event := by
  simp only [notes, here, if_pos own]

theorem notes_other {event : Event} (other : event.task? ≠ some i) : notes i s event = [] := by
  unfold notes
  split
  · exact if_neg other
  · rfl

theorem follows_run {events : List Event} (run : Run (Such (Logged (Step C) (notes i)) (Alone i)) (s, []) events (t, log))
    {task : Task} (here : s.tasks.get i = some task) (follows : Follows id key rt [] s task) :
    ∃ task, t.tasks.get i = some task ∧ Follows id key rt log t task := by
  refine run.invariant (fun a => ∃ task, a.1.tasks.get i = some task ∧ Follows id key rt a.2 a.1 task) ?_ ⟨task, here, follows⟩
  rintro ⟨u, old⟩ event ⟨v, new⟩ ⟨task, here, follows⟩ ⟨⟨step, logged⟩, alone⟩
  dsimp only at step logged here follows
  subst logged
  by_cases own : event.task? = some i
  · rw [notes_own here own]
    exact step.follows own here follows
  · rw [notes_other own, List.append_nil]
    refine ⟨task, (step.other_task own).trans here, follows.imp fun contacts covers => ?_⟩
    exact covers.step step (alone.resolve_left own)

/-- Of the ids nearest to the key, those were asked that had a place in the table when the lookup looked. -/
theorem asked_iff_kept {events : List Event} (run : Run (Such (Logged (Step C) (notes i)) (Alone i)) (s, []) events (t, log))
    (arranged : s.kad.Arranged) {caller : Caller} {wantValue : Bool}
    (begins : s.tasks.get i = some (.start caller key wantValue)) (ended : ∃ caller, t.tasks.get i = some (.found caller key none))
    {x : NodeId} (near : x ∈ nearest (dist · key) k (knownIds s.kad.rt log)) :
    .asked x ∈ log ↔ .refused x ∉ log ∧ Kept s.kad.id s.kad.rt log x := by
  have covers : Covers s.kad.id s.kad.rt [] s [] := ⟨arranged, rfl, by simp [knownIds, ids]⟩
  obtain ⟨caller', ended⟩ := ended
  obtain ⟨task, here, follows⟩ := follows_run run begins ⟨rfl, rfl, covers⟩
  cases ended.symm.trans here
  have told : Told s.kad.id key s.kad.rt log := follows
  rw [← seen_iff_kept near, told.seen]
  have once := told.once x
  tauto

/-- A lookup that finds nothing has asked every one of the ids nearest to the key, of all in the table and
all it heard of, exactly if the socket took its FINDs to them and each had a place in the table when it looked. -/
theorem asks_nearest_iff {identity : NodeIdentity C} {ownDesc : Descriptor} (signed : Descriptor.SignedBy identity ownDesc)
    {past : List Event} (reached : Run (Step C) (spawn identity ownDesc []) past s) {caller : Caller} {wantValue : Bool}
    (begins : s.tasks.get i = some (.start caller key wantValue)) {events : List Event}
    (run : Run (Such (Logged (Step C) (notes i)) (Alone i)) (s, []) events (t, log))
    (ended : ∃ caller, t.tasks.get i = some (.found caller key none)) :
    (∀ x ∈ nearest (dist · key) k (knownIds s.kad.rt log), .asked x ∈ log) ↔
      ∀ x ∈ nearest (dist · key) k (knownIds s.kad.rt log), .refused x ∉ log ∧ Kept identity.nodeId s.kad.rt log x := by
  have table : s.kad.Arranged ∧ s.kad.id = identity.nodeId :=
    reached.invariant (fun s => s.kad.Arranged ∧ s.kad.id = identity.nodeId)
      (fun _ _ _ before step => ⟨step.arranged before.1, step.id_ownDesc.1.trans before.2⟩) ⟨arranged_spawn signed, rfl⟩
  rw [← table.2]
  exact forall₂_congr fun x near => asked_iff_kept run table.1 begins ended near

/-! A lookup without replies. -/

theorem notes_look (s : DhtNode) (i : Nat) (caller : Caller) (l : Lookup) :
    Task.notes s (.advance i) (.lookup caller l) = [.round] := rfl

theorem Step.logged {event : Event} {task : Task} (step : Step C s event t) (own : event.task? = some i)
    (here : s.tasks.get i = some task) (log : List Note) :
    Such (Logged (Step C) (notes i)) (Alone i) (s, log) event (t, log ++ task.notes s event) :=
  ⟨⟨step, congrArg (log ++ ·) (notes_own here own).symm⟩, .inl own⟩

theorem Step.unlogged {event : Event} (step : Step C s event t) (other : event.task? ≠ some i) (same : t.kad.rt = s.kad.rt)
    (log : List Note) : Such (Logged (Step C) (notes i)) (Alone i) (s, log) event (t, log) :=
  ⟨⟨step, (List.append_nil log).symm.trans (congrArg (log ++ ·) (notes_other other).symm)⟩, .inr same⟩

theorem calls_expire {caller : Caller} {l : Lookup} (here : s.tasks.get i = some (.lookup caller l)) (log : List Note) :
    ∃ events t more, Run (Such (Logged (Step C) (notes i)) (Alone i)) (s, log) events (t, log ++ more) ∧
      (∃ queried, t.tasks.get i = some (.lookup caller { l with queried, batch := [] })) ∧ t.kad.rt = s.kad.rt ∧
      ∀ note ∈ more, ∃ x, note = .asked x := by
  obtain ⟨key, wantValue, closestSeen, queried, batch⟩ := l
  -- By induction along the batch, from any state.
  induction batch generalizing s log queried with
  | nil => exact ⟨[], s, [], (List.append_nil log).symm ▸ .nil _, ⟨queried, here⟩, rfl, by simp⟩
  | cons c batch ih =>
    let resume : Resume := .lookup caller ⟨key, wantValue, closestSeen, queried ++ [c.nodeId], batch⟩
    let asking := { s.openAt c.addr with sent := s.sent ++ Kademlia.sendRaw c.addr (.find key wantValue) }.put i
      (.waiting c.addr s.nextTx resume)
    let expired := asking.put i (.expired c.addr resume)
    let cleared := (expired.removeAt c.addr).put i (resume.reply none)
    have waits : asking.tasks.get i = some (.waiting c.addr s.nextTx resume) := Table.get_insert_self ..
    have timedOut : expired.tasks.get i = some (.expired c.addr resume) := Table.get_insert_self ..
    have call : Step C s (.call i) asking := .call here rfl
    have expire : Step C asking (.expire i) expired := .expire waits (s.openAt_empty c.addr)
    have clear : Step C expired (.advance i) cleared := .advance timedOut rfl
    obtain ⟨events, t, more, run, ended, same, asked⟩ := ih (s := cleared) (log ++ [.asked c.nodeId]) _ (Table.get_insert_self ..)
    refine ⟨.call i :: .expire i :: .advance i :: events, t, .asked c.nodeId :: more, ?_, ended,
      same.trans (s.openAt_same c.addr).rt, ?_⟩
    · rw [List.append_cons]
      have quiet := expire.logged rfl waits (log ++ [.asked c.nodeId])
      have quiet' := clear.logged rfl timedOut (log ++ [.asked c.nodeId])
      rw [show Task.notes asking (.expire i) (.waiting c.addr s.nextTx resume) = [] from rfl, List.append_nil] at quiet
      rw [show Task.notes expired (.advance i) (.expired c.addr resume) = [] from rfl, List.append_nil] at quiet'
      exact ((Run.cons quiet' run).cons quiet).cons (call.logged rfl here log)
    · exact List.forall_mem_cons.mpr ⟨⟨_, rfl⟩, asked⟩

theorem lookup_ends {caller : Caller} {l : Lookup} (here : s.tasks.get i = some (.lookup caller l)) (log : List Note) :
    ∃ events t more, Run (Such (Logged (Step C) (notes i)) (Alone i)) (s, log) events (t, log ++ more) ∧
      t.tasks.get i = some (.found caller l.key none) ∧ ∀ note ∈ more, note = .round ∨ ∃ x, note = .asked x := by
  have quiet : ∀ {asked asked' : List Note}, (∀ note ∈ asked, ∃ x, note = .asked x) → (∀ note ∈ asked', ∃ x, note = .asked x) →
      ∀ note ∈ asked ++ .round :: asked', note = .round ∨ ∃ x, note = .asked x := by
    intro asked asked' left right note member
    rcases List.mem_append.mp member with old | new
    · exact .inr (left note old)
    · rcases List.mem_cons.mp new with rfl | new
      · exact .inl rfl
      · exact .inr (right note new)
  obtain ⟨events, u, more, run, ⟨queried, there⟩, same, asked⟩ := calls_expire (C := C) here log
  by_cases converged : Lookup.converged { l with queried, batch := [] } (u.kad.closest l.key k) = true
  · have last : Step C u (.advance i) (u.put i (.found caller l.key none)) :=
      .advance there (by simp only [advance, converged, if_true])
    have whole := run.snoc (last.logged rfl there _)
    rw [notes_look, List.append_assoc] at whole
    exact ⟨_, _, _, whole, Table.get_insert_self .., quiet asked (by simp)⟩
  · have looks : Step C u (.advance i) (u.put i (Lookup.enter caller
        { l with queried, batch := [], closestSeen := u.kad.closest l.key k })) :=
      .advance there (by simp only [advance, converged, if_false, Bool.false_eq_true])
    have before := run.snoc (looks.logged rfl there _)
    rw [notes_look, List.append_assoc] at before
    rcases Lookup.enter_cases caller { l with queried, batch := [], closestSeen := u.kad.closest l.key k } with ended | ⟨batch, round⟩
    · rw [ended] at before
      exact ⟨_, _, _, before, Table.get_insert_self .., quiet asked (by simp)⟩
    · rw [round] at before
      -- The second round finds the table as it was, and is the last.
      have goes : (u.put i (.lookup caller { l with queried, closestSeen := u.kad.closest l.key k, batch })).tasks.get i =
          some (.lookup caller { l with queried, closestSeen := u.kad.closest l.key k, batch }) := Table.get_insert_self ..
      obtain ⟨events', v, more', run', ⟨queried', there'⟩, same', asked'⟩ := calls_expire (C := C) goes (log ++ (more ++ [.round]))
      have found : v.kad.closest l.key k = u.kad.closest l.key k := by rw [Kademlia.closest, same']; rfl
      have stays : Lookup.converged { l with queried := queried', closestSeen := u.kad.closest l.key k, batch := [] }
          (v.kad.closest l.key k) = true := found ▸ Lookup.converged_self _
      have last : Step C v (.advance i) (v.put i (.found caller l.key none)) :=
        .advance there' (by simp only [advance, stays, if_true])
      have whole := (before.trans run').snoc (last.logged rfl there' _)
      rw [notes_look, List.append_assoc (log ++ _), List.append_assoc log] at whole
      exact ⟨_, _, _, whole, Table.get_insert_self .., List.forall_mem_append.mpr
        ⟨quiet asked (List.forall_mem_nil _), quiet asked' (List.forall_mem_nil _)⟩⟩

end DhtNode

namespace Transparent

open Nbf.Crypto.Transparent

def nearId (j : Nat) : NodeId := ⟨List.replicate 19 1 ++ [UInt8.ofNat (j + 2)], by simp⟩

def crowd : List Contact := (List.range 64).map fun j => ⟨nearId j, loopback, 9200⟩

def crowded : List Contact := crowd ++ [⟨wanted, loopback, 9300⟩]

theorem peer_stored : ∃ data s, Run (DhtNode.Step crates) alone [.receive known.addr data, .start 0 (.start .direct wanted false)] s ∧
    s.tasks.get 0 = some (.start .direct wanted false) ∧ s.kad.rt = [own, known] := by
  obtain ⟨data, -, table, -⟩ := alone_learns
  refine ⟨data, _, .snoc (.single (.receive alone known.addr data)) (.start ?_ (.lookup wanted false)),
    Table.get_insert_self .., table⟩
  rw [DhtNode.receive_tasks]
  rfl

theorem crowd_heard {s : DhtNode} (begins : s.tasks.get 0 = some (.start .direct wanted false)) (table : s.kad.rt = [own, known]) :
    ∃ events t more, Run (Such (Logged (DhtNode.Step crates) (notes 0)) (Alone 0)) (s, []) events
      (t, [.round, .asked known.nodeId, .heard crowded] ++ more) ∧ t.tasks.get 0 = some (.found .direct wanted none) ∧
      ∀ note ∈ more, note = .round ∨ ∃ x, note = .asked x := by
  obtain ⟨data, -, decoded⟩ := rpcDecode_recvFrom (by decide) (rpcDecode_found (C := crates) crowded none (by decide) (by simp))
  have closest : s.kad.closest wanted k = [known, own] := by
    have far : ¬ dist own.nodeId wanted ≤ dist known.nodeId wanted := by decide
    rw [Kademlia.closest, table, sortByDist_pair, if_neg far]
    rfl
  let l : Lookup := ⟨wanted, false, [known, own], [], [known, own]⟩
  let asks := s.put 0 (.lookup .direct l)
  have looks : DhtNode.Step crates s (.advance 0) asks := by
    have enters : s.advance 0 (.start .direct wanted false) = some asks := by
      simp only [DhtNode.advance, closest]
      rfl
    exact .advance begins enters
  let resume : Resume := .lookup .direct { l with queried := [known.nodeId], batch := [own] }
  let waits := { asks.openAt known.addr with sent := asks.sent ++ Kademlia.sendRaw known.addr (.find wanted false) }.put 0
    (.waiting known.addr asks.nextTx resume)
  have asked : DhtNode.Step crates asks (.call 0) waits := .call (Table.get_insert_self ..) rfl
  let answered := { waits with kad := { waits.kad with pending := waits.kad.pending.remove known.addr },
                               channels := waits.channels.insert asks.nextTx (.got (.found crowded none)) }
  have got : DhtNode.Step crates waits (.receive known.addr data) answered := by
    have waiting : waits.kad.pending.get known.addr = some asks.nextTx :=
      (Table.get_insert_self ..).trans (congrArg some (asks.nextTx_closeAt known.addr))
    have handled := DhtNode.Step.receive (C := crates) waits known.addr data
    rwa [DhtNode.receive_found decoded waiting] at handled
  let merging := answered.put 0 (.merging crowded resume)
  have reply : answered.channels.get asks.nextTx = some (.got (.found crowded none)) := Table.get_insert_self ..
  have waiting : answered.tasks.get 0 = some (.waiting known.addr asks.nextTx resume) := Table.get_insert_self ..
  have takes : DhtNode.Step crates answered (.advance 0) merging :=
    .advance waiting (by simp only [DhtNode.advance, reply]; rfl)
  let merged := { merging with kad := merging.kad.tryMerge crowded }.put 0 resume.task
  have merges : DhtNode.Step crates merging (.advance 0) merged := .advance (Table.get_insert_self ..) rfl
  have goesOn : merged.tasks.get 0 = some (.lookup .direct { l with queried := [known.nodeId], batch := [own] }) :=
    Table.get_insert_self ..
  obtain ⟨events, t, more, rest, ended, quiet⟩ :=
    DhtNode.lookup_ends (C := crates) goesOn [.round, .asked known.nodeId, .heard crowded]
  have hears := takes.logged rfl waiting [.round, .asked known.nodeId]
  rw [show Task.notes answered (.advance 0) (.waiting known.addr asks.nextTx resume) = [.heard crowded] by
    simp only [Task.notes, reply, resume]] at hears
  have whole := (rest.cons (merges.logged rfl (Table.get_insert_self ..) [.round, .asked known.nodeId, .heard crowded])).cons hears
    |>.cons (got.unlogged (by simp [Event.task?]) rfl _) |>.cons (asked.logged rfl (Table.get_insert_self ..) [.round])
    |>.cons (looks.logged rfl begins [])
  exact ⟨_, t, more, whole, ended, quiet⟩

theorem card_crowd : (ids crowd).card = 64 := by
  have nodup : ((List.range 64).map nearId).Nodup := by
    refine List.Nodup.map_on (fun i below j below' same => ?_) List.nodup_range
    have bytes : UInt8.ofNat (i + 2) = UInt8.ofNat (j + 2) := by simpa [nearId] using same
    have values := congrArg UInt8.toNat bytes
    rw [List.mem_range] at below below'
    rw [UInt8.toNat_ofNat', UInt8.toNat_ofNat', Nat.mod_eq_of_lt (by omega), Nat.mod_eq_of_lt (by omega)] at values
    omega
  have names : crowd.map (·.nodeId) = (List.range 64).map nearId := by simp [crowd]
  rw [ids, names, List.toFinset_card_of_nodup nodup, List.length_map, List.length_range]

theorem wanted_crowded_out {s : Finset NodeId} (sub : ids crowd ⊆ s) :
    wanted ∉ nearest (dist · (identity 1).nodeId) 64 s := by
  intro kept
  have nearer : ∀ c ∈ crowd, dist c.nodeId (identity 1).nodeId < dist wanted (identity 1).nodeId := by decide +kernel
  have under : ids crowd ⊆ below (dist · (identity 1).nodeId) s wanted := by
    intro i member
    obtain ⟨c, there, rfl⟩ := mem_ids.mp member
    exact mem_below.mpr ⟨sub member, nearer c there⟩
  have many := Finset.card_le_card under
  have few := (mem_nearest.mp kept).2
  rw [card_crowd] at many
  omega

theorem wanted_not_kept (more : List Note) :
    ¬ Kept (identity 1).nodeId [own, known] ([.round, .asked known.nodeId, .heard crowded] ++ more) wanted := by
  rintro ⟨before, after, cut, kept⟩
  have early : wanted ∉ nearest (dist · (identity 1).nodeId) 64 (knownIds [own, known] []) := by decide +kernel
  -- The three notes before the crowd is heard of hold one round, the first.
  cases before with
  | nil => exact early kept
  | cons first before =>
    cases before with
    | nil => cases cut
    | cons second before =>
      cases before with
      | nil => cases cut
      | cons third before =>
        obtain ⟨rfl, rfl, rfl, -⟩ : first = .round ∧ second = .asked known.nodeId ∧ third = .heard crowded ∧ True := by
          simp only [List.cons_append, List.cons.injEq] at cut
          exact ⟨cut.1.symm, cut.2.1.symm, cut.2.2.1.symm, trivial⟩
        refine wanted_crowded_out (fun i member => ?_) kept
        have heard : i ∈ ids crowded := by
          rw [crowded, ids_append]
          exact Finset.mem_union_left _ member
        simp only [knownIds, List.flatMap_cons, Note.contacts, ids_append, List.nil_append]
        exact Finset.mem_union_right _ (Finset.mem_union_left _ heard)

theorem crowded_iff : ∃ past s events t log, Run (DhtNode.Step crates) alone past s ∧
    Run (Such (Logged (DhtNode.Step crates) (notes 0)) (Alone 0)) (s, []) events (t, log) ∧
    ((∀ x ∈ nearest (dist · wanted) k (knownIds s.kad.rt log), .asked x ∈ log) ↔
      ∀ x ∈ nearest (dist · wanted) k (knownIds s.kad.rt log), .refused x ∉ log ∧ Kept (identity 1).nodeId s.kad.rt log x) := by
  obtain ⟨data, s, reached, begins, table⟩ := peer_stored
  obtain ⟨events, t, more, run, ended, -⟩ := crowd_heard begins table
  exact ⟨_, s, events, t, _, reached, run, DhtNode.asks_nearest_iff (descriptor_signed 1 9100) reached begins run ⟨_, ended⟩⟩

/-- A lookup hears of the very id it looks for, loses it to ids nearer to the node, and ends without asking it. -/
theorem wanted_never_asked : ∃ past s events t log, Run (DhtNode.Step crates) alone past s ∧
    s.tasks.get 0 = some (.start .direct wanted false) ∧
    Run (Such (Logged (DhtNode.Step crates) (notes 0)) (Alone 0)) (s, []) events (t, log) ∧
    t.tasks.get 0 = some (.found .direct wanted none) ∧ (∀ x, .refused x ∉ log) ∧
    ∃ x ∈ nearest (dist · wanted) k (knownIds s.kad.rt log), .asked x ∉ log := by
  obtain ⟨data, s, reached, begins, table⟩ := peer_stored
  obtain ⟨events, t, more, run, ended, quiet⟩ := crowd_heard begins table
  have arranged : s.kad.Arranged := reached.invariant (·.kad.Arranged) (fun _ _ _ before step => step.arranged before)
    (DhtNode.arranged_spawn (descriptor_signed 1 9100))
  have node : s.kad.id = (identity 1).nodeId :=
    reached.invariant (·.kad.id = (identity 1).nodeId) (fun _ _ _ before step => step.id_ownDesc.1.trans before) rfl
  have near : wanted ∈ nearest (dist · wanted) k (knownIds s.kad.rt ([.round, .asked known.nodeId, .heard crowded] ++ more)) := by
    apply key_nearest (by decide)
    exact mem_ids.mpr ⟨⟨wanted, loopback, 9300⟩, List.mem_append_right _ (List.mem_flatMap.mpr ⟨.heard crowded, by simp, by
      simp [Note.contacts, crowded]⟩), rfl⟩
  refine ⟨_, s, events, t, _, reached, begins, run, ended, ?_, wanted, near, ?_⟩
  · intro x member
    rcases List.mem_append.mp member with early | late
    · simp at early
    · rcases quiet _ late with same | ⟨_, same⟩ <;> cases same
  · intro asked
    have kept := ((DhtNode.asked_iff_kept run arranged begins ⟨_, ended⟩ near).mp asked).2
    rw [node, table] at kept
    exact wanted_not_kept more kept

end Transparent
end Nbf.Dht

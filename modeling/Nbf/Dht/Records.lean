import Nbf.Dht.Handlers

/-! How old the descriptors are that a node keeps, serves and routes with.

The ledger of a run says what came in so far, beside what the node itself has.
-/

set_option autoImplicit false

namespace Nbf.Dht

open Nbf.Library Nbf.Crypto Nbf.Net

def Fresh (now : UInt64) (d : Descriptor) : Prop := now.toNat ≤ d.ts.toNat + ttlDesc

instance (now : UInt64) (d : Descriptor) : Decidable (Fresh now d) := inferInstanceAs (Decidable (_ ≤ _))

def Latest (others : List Descriptor) (x : NodeId) (d : Descriptor) : Prop :=
  ∀ other ∈ others, other.nodeId = x → other.ts ≤ d.ts

/-- The store has, of all that was accepted for an id, the latest. -/
structure Newest (store : Table NodeId Descriptor) (history : List Descriptor) : Prop where
  accepted : ∀ key d, store.get key = some d → d ∈ history
  greatest : ∀ old ∈ history, ∃ d, store.get old.nodeId = some d ∧ old.ts ≤ d.ts

def Current (kad : Kademlia) (now : UInt64) (target : NodeId) (d : Descriptor) : Prop :=
  Fresh now d ∧ ∀ stored, kad.store.get target = some stored → stored.ts ≤ d.ts

/-- What a task of `lookup_route` is about to put into the cache. -/
def DhtNode.caching (s : DhtNode) : Task → Option (NodeId × Descriptor)
  | .routeStore target => (s.kad.store.get target).map fun d => (target, d)
  | .found .route target result => result.map fun d => (target, d)
  | _ => none

/-- The value that the lookup of a task of `lookup_route` is about to take from a FOUND. -/
def DhtNode.answering (s : DhtNode) : Task → Option Descriptor
  | .waiting _ rx (.lookup .route l) =>
    match l.wantValue, s.channels.get rx with
    | true, some (.got (.found _ value)) => value
    | _, _ => none
  | _ => none

namespace Serving

def caching (s : Serving) : ServingEvent → Option (NodeId × Descriptor)
  | .task (.advance i) => (s.node.tasks.get i).bind s.node.caching
  | _ => none

def answering (s : Serving) : ServingEvent → Option (Nat × Descriptor)
  | .task (.advance i) => ((s.node.tasks.get i).bind s.node.answering).map fun d => (i, d)
  | _ => none

end Serving

structure Ledger where
  /-- What came into the store, oldest first. -/
  accepted : List Descriptor
  /-- What was cached last for an id, and how many descriptors had come in by then. -/
  cached : Table NodeId (Descriptor × Nat)
  /-- The values that tasks of `lookup_route` took. -/
  answers : Table Nat Descriptor

namespace Ledger

def note (C : Crates) (l : Ledger) (s : Serving) (event : ServingEvent) : Ledger where
  accepted := l.accepted ++ (s.storing C event).toList
  cached :=
    match s.caching event with
    | some (target, d) => l.cached.insert target (d, l.accepted.length)
    | none => l.cached
  answers :=
    match s.answering event with
    | some (i, d) => l.answers.insert i d
    | none => l.answers

/-- If descriptors for the id came in at all, one of them has not expired. -/
def Lasts (l : Ledger) (now : UInt64) (x : NodeId) : Prop :=
  ∀ d ∈ l.accepted, d.nodeId = x → ∃ later ∈ l.accepted, later.nodeId = x ∧ Fresh now later

/-- What a task of `lookup_route` goes by has not expired, and nothing later has come in for its target. -/
def Usable (l : Ledger) (now : UInt64) (i : Nat) : Task → Prop
  | .routeCache target => ∀ d n, l.cached.get target = some (d, n) → Fresh now d ∧ Latest (l.accepted.drop n) target d
  | .routeStore target => l.Lasts now target
  | .found .route target (some _) => ∀ d, l.answers.get i = some d → Fresh now d ∧ Latest l.accepted target d
  | _ => True

end Ledger

abbrev Recorded := Serving × Ledger

def Recorded.spawn {C : Crates} (identity : NodeIdentity C) (ownDesc : Descriptor) : Recorded :=
  (.spawn identity ownDesc, ⟨[ownDesc], .empty, .empty⟩)

def RecordStep (C : Crates) (a : Recorded) (label : UInt64 × ServingEvent) (b : Recorded) : Prop :=
  Serving.Step C a.1 label.2 b.1 ∧ b.2 = a.2.note C a.1 label.2

structure RightRecords (C : Crates) (before : Recorded) (label : UInt64 × ServingEvent) (after : Recorded) : Prop where
  newest : Newest after.1.node.kad.store after.2.accepted
  served : ∀ out, after.1.node.sent = before.1.node.sent ++ out → ∀ datagram ∈ out, ∀ contacts d,
    rpcDecode C datagram.2 = .ok (.found contacts (some d)) → Fresh label.1 d
  routed : ∀ i target d, label.2 = .task (.advance i) → after.1.node.tasks.get i = some (.routed target (.ok d)) →
    Current after.1.node.kad label.1 target d

/-- A STORE is as late as all that came in for its id before, and what is asked for or routed with lasts. -/
structure UpToDate (C : Crates) (before : Recorded) (label : UInt64 × ServingEvent) (_ : Recorded) : Prop where
  stores : ∀ desc, before.1.storing C label.2 = some desc → Latest before.2.accepted desc.nodeId desc
  asks : ∀ key, before.1.reading label.2 = some key → before.2.Lasts label.1 key
  routes : ∀ i task, label.2 = .task (.advance i) → before.1.node.tasks.get i = some task → before.2.Usable label.1 i task

/-! ## What the store has -/

section

variable {C : Crates} {kad : Kademlia} {history : List Descriptor}

theorem Newest.insert_iff {store : Table NodeId Descriptor} (newest : Newest store history) (desc : Descriptor) :
    Newest (store.insert desc.nodeId desc) (history ++ [desc]) ↔ Latest history desc.nodeId desc := by
  constructor
  · intro after old member named
    obtain ⟨d, there, later⟩ := after.greatest old (List.mem_append_left _ member)
    rw [named, Table.get_insert_self, Option.some.injEq] at there
    exact there ▸ later
  · intro late
    refine ⟨fun key d here => ?_, fun old member => ?_⟩
    · rcases Table.get_insert_some here with ⟨-, rfl⟩ | ⟨-, before⟩
      · exact List.mem_append_right _ (List.mem_singleton_self _)
      · exact List.mem_append_left _ (newest.accepted key d before)
    · rcases List.mem_append.mp member with before | new
      · by_cases same : old.nodeId = desc.nodeId
        · rw [same]
          exact ⟨desc, Table.get_insert_self .., late old before same⟩
        · obtain ⟨d, there, later⟩ := newest.greatest old before
          exact ⟨d, (Table.get_insert_of_ne _ _ same).trans there, later⟩
      · rw [List.mem_singleton.mp new]
        exact ⟨desc, Table.get_insert_self .., UInt64.le_refl _⟩

theorem Newest.latest_iff (newest : Newest kad.store history) (sound : kad.Sound C) {x : NodeId} (d : Descriptor) :
    Latest history x d ↔ ∀ stored, kad.store.get x = some stored → stored.ts ≤ d.ts := by
  constructor
  · exact fun latest stored here => latest stored (newest.accepted x stored here) (sound x stored here).1
  · intro below old member named
    obtain ⟨stored, here, later⟩ := newest.greatest old member
    exact UInt64.le_trans later (below stored (named ▸ here))

theorem Newest.lasts_iff {l : Ledger} (newest : Newest kad.store l.accepted) (sound : kad.Sound C) (now : UInt64) (x : NodeId) :
    l.Lasts now x ↔ ∀ d, kad.store.get x = some d → Fresh now d := by
  constructor
  · intro lasts d here
    obtain ⟨later, member, named, fresh⟩ := lasts d (newest.accepted x d here) (sound x d here).1
    have last : later.ts ≤ d.ts := (newest.latest_iff sound d).mpr
      (fun stored there => Option.some.inj (there.symm.trans here) ▸ UInt64.le_refl _) later member named
    exact Nat.le_trans fresh (Nat.add_le_add_right (UInt64.le_iff_toNat_le.mp last) _)
  · intro fresh d member named
    obtain ⟨stored, here, -⟩ := newest.greatest d member
    rw [named] at here
    exact ⟨stored, newest.accepted x stored here, (sound x stored here).1, fresh stored here⟩

end

/-! ## What tasks of `lookup_route` come to -/

theorem enter_not_routed (caller : Caller) (l : Lookup) (target : NodeId) (d : Descriptor) :
    Lookup.enter caller l ≠ .routed target (.ok d) := by
  unfold Lookup.enter
  split <;> nofun

theorem enter_not_found (caller : Caller) (l : Lookup) (target : NodeId) (d : Descriptor) :
    Lookup.enter caller l ≠ .found .route target (some d) := by
  unfold Lookup.enter
  split <;> nofun

namespace Resume

theorem task_not_routed (resume : Resume) (target : NodeId) (d : Descriptor) : resume.task ≠ .routed target (.ok d) := by
  cases resume <;> nofun

theorem task_not_found (resume : Resume) (target : NodeId) (d : Descriptor) : resume.task ≠ .found .route target (some d) := by
  cases resume <;> nofun

theorem reply_not_routed (resume : Resume) (reply? : Option RpcMsg) (target : NodeId) (d : Descriptor) :
    resume.reply reply? ≠ .routed target (.ok d) := by
  unfold Resume.reply
  split
  · split <;> nofun
  · nofun
  · exact task_not_routed resume target d

theorem reply_found {resume : Resume} {reply? : Option RpcMsg} {target : NodeId} {d : Descriptor}
    (found : resume.reply reply? = .found .route target (some d)) :
    ∃ l contacts, resume = .lookup .route l ∧ l.wantValue = true ∧ reply? = some (.found contacts (some d)) := by
  unfold Resume.reply at found
  split at found
  next l contacts value =>
    split at found
    next wants =>
      cases found
      exact ⟨l, contacts, rfl, wants, rfl⟩
    next => cases found
  next => cases found
  next => exact absurd found (task_not_found resume target d)

end Resume

namespace DhtNode

variable {s t : DhtNode} {i : Nat} {task : Task} {target : NodeId} {d : Descriptor}

theorem advance_routed (step : s.advance i task = some t) : t.tasks.get i = some (.routed target (.ok d)) ↔
    (task = .routeCache target ∧ s.dhtCache.get target = some d) ∨
    (task = .routeStore target ∧ s.kad.store.get target = some d) ∨ task = .found .route target (some d) := by
  obtain ⟨u, next, move, rfl⟩ := advance_cases step
  rw [put, Table.get_insert_self, Option.some.injEq]
  cases move with
  | @cached target' d' hit | @stored target' d' hit =>
    by_cases same : target' = target
    · subst same
      simp [hit]
    · simp [same]
  | @uncached target' miss | @unstored target' miss =>
    by_cases same : target' = target
    · subst same
      simp [miss]
    · simp [same]
  | start | round => simp [enter_not_routed]
  | got | closed | expired => simp [Resume.reply_not_routed]
  | merging => simp [Resume.task_not_routed]
  | converged | found | notFound => simp

theorem advance_found (step : s.advance i task = some t) (found : t.tasks.get i = some (.found .route target (some d))) :
    s.answering task = some d := by
  obtain ⟨u, next, move, rfl⟩ := advance_cases step
  rw [put, Table.get_insert_self, Option.some.injEq] at found
  cases move with
  | @got addr rx resume msg here =>
    obtain ⟨l, contacts, rfl, wants, reply⟩ := Resume.reply_found found
    cases reply
    simp only [answering, wants, here]
  | closed | expired =>
    obtain ⟨_, _, -, -, reply⟩ := Resume.reply_found found
    cases reply
  | start | round => exact (enter_not_found _ _ _ _ found).elim
  | merging => exact (Resume.task_not_found _ _ _ found).elim
  | cached | uncached | stored | unstored | converged | found | notFound => cases found

theorem advance_cache (step : s.advance i task = some t) : t.dhtCache =
    match s.caching task with
    | some (target, d) => s.dhtCache.insert target d
    | none => s.dhtCache := by
  obtain ⟨u, next, move, rfl⟩ := advance_cases step
  cases move with
  | stored hit | unstored hit => simp [caching, hit, put]
  | expired => simp [caching, put]
  | _ => rfl

theorem advance_store (step : s.advance i task = some t) : t.kad.store = s.kad.store := by
  rcases advance_tables step with ⟨-, same⟩ | ⟨contacts, resume, -, merged⟩
  · exact same.store
  · rw [merged]
    rfl

end DhtNode

namespace Serving

variable {C : Crates} {s t : Serving} {event : ServingEvent}

theorem loop_tasks (s : Serving) (j : Nat) (src : SocketAddr) (data : List UInt8) :
    (s.loop C j src data).node.tasks = s.node.tasks ∧ (s.loop C j src data).node.dhtCache = s.node.dhtCache ∧
      (s.loop C j src data).node.sent = s.node.sent := by
  rcases s.loop_cases (C := C) j src data with ⟨msg, tx, -, -, -, same⟩ | same <;> rw [same] <;> exact ⟨rfl, rfl, rfl⟩

theorem handle_tasks (s : Serving) (j : Nat) (handler : Handler) :
    (s.handle C j handler).node.tasks = s.node.tasks ∧ (s.handle C j handler).node.dhtCache = s.node.dhtCache := by
  have move := s.handle_cases (C := C) j handler
  generalize s.handle C j handler = t at move
  cases move <;> exact ⟨rfl, rfl⟩

theorem Step.found (step : Step C s event t) {i : Nat} {target : NodeId} {d : Descriptor}
    (found : t.node.tasks.get i = some (.found .route target (some d))) :
    s.answering event = some (i, d) ∨
      s.node.tasks.get i = some (.found .route target (some d)) ∧ ∀ d', s.answering event ≠ some (i, d') := by
  cases step with
  | receive src data => exact .inr ⟨(s.loop_tasks _ src data).1 ▸ found, nofun⟩
  | handle => exact .inr ⟨(s.handle_tasks _ _).1 ▸ found, nofun⟩
  | @task event u other step =>
    by_cases own : event.task? = some i
    · cases step with
      | receive src data => exact absurd rfl (other src data)
      | @advance _ j task here step =>
        cases own
        left
        simp [answering, here, DhtNode.advance_found step found]
      | start free initial =>
        cases own
        cases (Table.get_insert_self ..).symm.trans found
        cases initial
      | call here asks =>
        cases own
        cases (Table.get_insert_self ..).symm.trans found
      | @fail j task addr msg resume here asks =>
        cases own
        obtain ⟨_, _, -, -, reply⟩ := Resume.reply_found (Option.some.inj ((Table.get_insert_self ..).symm.trans found))
        cases reply
      | expire here empty =>
        cases own
        cases (Table.get_insert_self ..).symm.trans found
    · refine .inr ⟨(step.other_task own) ▸ found, fun d' answered => own ?_⟩
      cases event with
      | advance j =>
        obtain ⟨_, -, same⟩ := Option.map_eq_some_iff.mp answered
        exact congrArg (fun answer => some answer.1) same
      | receive | start | call | fail | expire => cases answered

theorem caching_cases {target : NodeId} {d : Descriptor} (caches : s.caching event = some (target, d)) :
    ∃ i task, event = .task (.advance i) ∧ s.node.tasks.get i = some task ∧ s.node.caching task = some (target, d) := by
  unfold caching at caches
  split at caches
  next i =>
    obtain ⟨task, here, caches⟩ := Option.bind_eq_some_iff.mp caches
    exact ⟨i, task, rfl, here, caches⟩
  next => cases caches

theorem Step.cache (step : Step C s event t) : t.node.dhtCache =
    match s.caching event with
    | some (target, d) => s.node.dhtCache.insert target d
    | none => s.node.dhtCache := by
  cases step with
  | receive src data => exact (s.loop_tasks _ src data).2.1
  | handle => exact (s.handle_tasks _ _).2
  | @task event u other step =>
    cases step with
    | receive src data => exact absurd rfl (other src data)
    | start | expire => rfl
    | call | fail => exact (s.node.openAt_kept _).1
    | @advance _ i task here step =>
      have moved := DhtNode.advance_cache step
      simp only [caching, here, Option.bind_some]
      exact moved

end Serving

/-! ## What a step serves -/

theorem pingResponse_type (nonce : UInt64) : (pingResponse nonce).type ≠ .found := nofun

section

variable {C : Crates}

theorem sendRaw_not_found {msg : RpcMsg} (other : msg.type ≠ .found) (addr : SocketAddr) {datagram : SocketAddr × List UInt8}
    (sent : datagram ∈ Kademlia.sendRaw addr msg) (contacts : List Contact) (value : Option Descriptor) :
    rpcDecode C datagram.2 ≠ .ok (.found contacts value) := by
  intro decoded
  unfold Kademlia.sendRaw at sent
  split at sent
  next bytes encoded =>
    rw [List.mem_singleton.mp sent] at decoded
    exact other (rpcDecode_rpcEncode_type encoded decoded).symm
  next => cases sent

theorem sendRaw_found {near : List Contact} {value : Option Descriptor} (few : near.length ≤ k)
    (checked : ∀ d ∈ value, d.Verified C) (src : SocketAddr) :
    ∃ bytes, Kademlia.sendRaw src (.found near value) = [(src, bytes)] ∧ rpcDecode C bytes = .ok (.found near value) := by
  obtain ⟨bytes, encoded, back⟩ := rpcDecode_found near value (Nat.lt_of_le_of_lt few (by decide)) checked
  exact ⟨bytes, by simp only [Kademlia.sendRaw, encoded], back⟩

end

namespace DhtNode

variable {C : Crates} {s t : DhtNode} {event : Event}

theorem Step.sent (step : Step C s event t) (requests : s.Requests) (other : ∀ src data, event ≠ .receive src data) :
    ∃ out, t.sent = s.sent ++ out ∧
      ∀ datagram ∈ out, ∀ contacts d, rpcDecode C datagram.2 ≠ .ok (.found contacts (some d)) := by
  cases step with
  | receive src data => exact absurd rfl (other src data)
  | start => exact ⟨[], (List.append_nil _).symm, by simp⟩
  | advance here step => exact ⟨[], (advance_sent step).trans (List.append_nil _).symm, by simp⟩
  | call here asks =>
    have request := ((requests _ _ here).call asks).1
    exact ⟨_, rfl, fun datagram sent contacts d => sendRaw_not_found (RpcMsg.IsRequest.not_found request) _ sent contacts _⟩
  | fail here _ => exact ⟨[], (s.sent_openAt _).trans (List.append_nil _).symm, by simp⟩
  | expire => exact ⟨[], (List.append_nil _).symm, by simp⟩

end DhtNode

namespace Serving

variable {C : Crates} {s t : Serving} {event : ServingEvent}

def Short (s : Serving) : Prop := ∀ j src key near, s.handlers.get j = some (.value src key near) → near.length ≤ k

theorem Step.short (step : Step C s event t) (short : s.Short) : t.Short := by
  intro j src key near here
  cases step with
  | @receive j' src' data _ =>
    rcases s.loop_cases (C := C) j' src' data with ⟨msg, tx, -, -, -, same⟩ | same <;> rw [same] at here
    · exact short j src key near here
    · rcases Table.get_insert_some here with ⟨-, other⟩ | ⟨-, old⟩
      · cases other
      · exact short j src key near old
  | @handle j' handler _ =>
    have move := s.handle_cases (C := C) j' handler
    generalize s.handle C j' handler = t at move here
    cases move with
    | store =>
      rcases Table.get_insert_some here with ⟨-, other⟩ | ⟨-, old⟩
      · cases other
      · exact short j src key near old
    | look =>
      rcases Table.get_insert_some here with ⟨-, own⟩ | ⟨-, old⟩
      · cases own
        exact List.length_take_le k _
      · exact short j src key near old
    | ping | find | nothing | value | merge => exact short j src key near (Table.get_remove_some here)
  | task => exact short j src key near here

theorem Step.sent (step : Step C s event t) (sound : s.node.kad.Sound C) (requests : s.node.Requests) (short : s.Short) :
    (∃ key contacts datagram, s.reading event = some key ∧ t.node.sent = s.node.sent ++ [datagram] ∧
      rpcDecode C datagram.2 = .ok (.found contacts (s.node.kad.store.get key))) ∨
    (s.reading event = none ∧ ∃ out, t.node.sent = s.node.sent ++ out ∧ ∀ datagram ∈ out, ∀ contacts d,
      rpcDecode C datagram.2 ≠ .ok (.found contacts (some d))) := by
  cases step with
  | receive src data =>
    exact .inr ⟨rfl, [], (s.loop_tasks _ src data).2.2.trans (List.append_nil _).symm, by simp⟩
  | @handle j handler here =>
    have move := s.handle_cases (C := C) j handler
    generalize s.handle C j handler = t at move
    cases move with
    | @value src key near =>
      obtain ⟨bytes, sent, back⟩ := sendRaw_found (short j src key near here) (fun d there => (sound key d there).2) src
      exact .inl ⟨key, near, (src, bytes), by simp only [reading, here], by simp only [answer, sent], back⟩
    | @ping src _ nonce =>
      exact .inr ⟨by simp only [reading, here], _, rfl,
        fun datagram sent contacts d => sendRaw_not_found (pingResponse_type nonce) src sent contacts _⟩
    | @find src _ key =>
      have few : ((sortByDist key s.node.kad.rt).take k).length ≤ k := List.length_take_le k _
      have checked : ∀ d ∈ (none : Option Descriptor), d.Verified C := by simp
      obtain ⟨bytes, sent, back⟩ := sendRaw_found few checked src
      refine .inr ⟨by simp only [reading, here], _, rfl, fun datagram member contacts d found => ?_⟩
      rw [Kademlia.closest, sent, List.mem_singleton] at member
      rw [member] at found
      cases back.symm.trans found
    | store | look | nothing | merge => exact .inr ⟨by simp only [reading, here], [], (List.append_nil _).symm, by simp⟩
  | task other step => exact .inr ⟨rfl, step.sent requests other⟩

theorem served_iff (now : UInt64) (step : Step C s event t) (sound : s.node.kad.Sound C) (requests : s.node.Requests) (short : s.Short) :
    (∀ out, t.node.sent = s.node.sent ++ out → ∀ datagram ∈ out, ∀ contacts d,
      rpcDecode C datagram.2 = .ok (.found contacts (some d)) → Fresh now d) ↔
    ∀ key, s.reading event = some key → ∀ d, s.node.kad.store.get key = some d → Fresh now d := by
  rcases step.sent sound requests short with ⟨key, near, answer, reads, sent, back⟩ | ⟨reads, out, sent, none⟩
  · rw [reads, sent]
    constructor
    · rintro served _ ⟨⟩ d here
      exact served _ rfl answer (List.mem_singleton_self _) near d (here ▸ back)
    · intro fresh out same datagram member contacts d found
      rw [← List.append_cancel_left same, List.mem_singleton] at member
      rw [member, back, Checked.ok.injEq, RpcMsg.found.injEq] at found
      exact fresh key rfl d found.2
  · rw [reads]
    refine ⟨fun _ key => nofun, fun _ out' same datagram member contacts d found => ?_⟩
    rw [sent] at same
    exact absurd found (none datagram (List.append_cancel_left same ▸ member) contacts d)

theorem newest_iff {history : List Descriptor} (step : Step C s event t) (newest : Newest s.node.kad.store history) :
    Newest t.node.kad.store (history ++ (s.storing C event).toList) ↔
      ∀ desc, s.storing C event = some desc → Latest history desc.nodeId desc := by
  cases step.change with
  | none stores _ same =>
    rw [stores, same.store, Option.toList_none, List.append_nil]
    exact ⟨fun _ => nofun, fun _ => newest⟩
  | @stored desc stores _ kept =>
    rw [stores, kept, Option.toList_some]
    refine (newest.insert_iff desc).trans ⟨?_, fun latest => latest desc rfl⟩
    rintro latest _ ⟨⟩
    exact latest
  | merged stores _ merged =>
    rw [stores, merged, Option.toList_none, List.append_nil]
    exact ⟨fun _ => nofun, fun _ => newest⟩

theorem Step.requests (step : Step C s event t) (requests : s.node.Requests) : t.node.Requests := by
  cases step with
  | receive src data =>
    intro i task here
    exact requests i task ((s.loop_tasks _ src data).1 ▸ here)
  | handle =>
    intro i task here
    exact requests i task ((s.handle_tasks _ _).1 ▸ here)
  | task other step => exact step.requests requests

end Serving

/-! ## Runs -/

section

variable {C : Crates}

theorem RecordStep.of {s t : Serving} {event : ServingEvent} (step : Serving.Step C s event t) (now : UInt64) (l : Ledger) :
    RecordStep C (s, l) (now, event) (t, l.note C s event) := ⟨step, rfl⟩

theorem UpToDate.of_none {a b : Recorded} {now : UInt64} {event : ServingEvent} (stores : a.1.storing C event = none)
    (reads : a.1.reading event = none) (other : ∀ i, event ≠ .task (.advance i)) : UpToDate C a (now, event) b := by
  refine ⟨fun desc storing => ?_, fun key reading => ?_, fun i _ advances => absurd advances (other i)⟩
  · cases stores.symm.trans storing
  · cases reads.symm.trans reading

structure Records (C : Crates) (a : Recorded) : Prop where
  sound : a.1.node.kad.Sound C
  requests : a.1.node.Requests
  short : a.1.Short
  newest : Newest a.1.node.kad.store a.2.accepted
  cached : ∀ target, a.1.node.dhtCache.get target = (a.2.cached.get target).map Prod.fst
  /-- What was cached was the latest then. -/
  within : ∀ target d n, a.2.cached.get target = some (d, n) →
    n ≤ a.2.accepted.length ∧ Latest (a.2.accepted.take n) target d
  answered : ∀ i target d, a.1.node.tasks.get i = some (.found .route target (some d)) → a.2.answers.get i = some d

theorem latest_split {history : List Descriptor} {n : Nat} {x : NodeId} {d : Descriptor}
    (latest : Latest (history.take n) x d) : Latest history x d ↔ Latest (history.drop n) x d := by
  refine ⟨fun all other member => all other (List.mem_of_mem_drop member), fun rest other member => ?_⟩
  rw [← List.take_append_drop n history] at member
  exact (List.mem_append.mp member).elim (latest other) (rest other)

theorem Records.usable_iff {a : Recorded} {t : DhtNode} {now : UInt64} {i : Nat} {task : Task} (records : Records C a)
    (here : a.1.node.tasks.get i = some task) (step : a.1.node.advance i task = some t) :
    a.2.Usable now i task ↔
      ∀ target d, t.tasks.get i = some (.routed target (.ok d)) → Current a.1.node.kad now target d := by
  have latest (target : NodeId) (d : Descriptor) := records.newest.latest_iff records.sound (x := target) d
  constructor
  · intro usable target d returned
    rcases (DhtNode.advance_routed step).mp returned with ⟨rfl, hit⟩ | ⟨rfl, hit⟩ | rfl
    · rw [records.cached] at hit
      obtain ⟨⟨d', n⟩, cached, rfl⟩ := Option.map_eq_some_iff.mp hit
      obtain ⟨fresh, later⟩ := usable d' n cached
      exact ⟨fresh, (latest target d').mp ((latest_split (records.within target d' n cached).2).mpr later)⟩
    · refine ⟨(records.newest.lasts_iff records.sound now target).mp usable d hit, fun stored there => ?_⟩
      exact Option.some.inj (hit.symm.trans there) ▸ UInt64.le_refl _
    · obtain ⟨fresh, later⟩ := usable d (records.answered i target d here)
      exact ⟨fresh, (latest target d).mp later⟩
  · intro current
    have returned (target : NodeId) (d : Descriptor) := fun comes => current target d ((DhtNode.advance_routed step).mpr comes)
    cases task with
    | routeCache target =>
      intro d n cached
      have hit : a.1.node.dhtCache.get target = some d := by rw [records.cached, cached, Option.map_some]
      obtain ⟨fresh, later⟩ := returned target d (.inl ⟨rfl, hit⟩)
      exact ⟨fresh, (latest_split (records.within target d n cached).2).mp ((latest target d).mpr later)⟩
    | routeStore target =>
      exact (records.newest.lasts_iff records.sound now target).mpr fun d stored => (returned target d (.inr (.inl ⟨rfl, stored⟩))).1
    | found caller target result =>
      cases caller with
      | direct => trivial
      | route =>
        cases result with
        | none => trivial
        | some d =>
          intro d' answered
          cases (records.answered i target d here).symm.trans answered
          obtain ⟨fresh, later⟩ := returned target d (.inr (.inr rfl))
          exact ⟨fresh, (latest target d).mpr later⟩
    | start | lookup | calls | waiting | expired | merging | routed => trivial

/-- One step keeps, serves and returns right records exactly if those it is given are up to date. -/
theorem rightRecords_iff {a b : Recorded} {label : UInt64 × ServingEvent} (records : Records C a)
    (step : RecordStep C a label b) : RightRecords C a label b ↔ UpToDate C a label b := by
  obtain ⟨s, l⟩ := a
  obtain ⟨t, l'⟩ := b
  obtain ⟨now, event⟩ := label
  obtain ⟨move, noted⟩ := step
  dsimp only at move noted
  subst noted
  have keeps := Serving.newest_iff move records.newest
  have serves := Serving.served_iff now move records.sound records.requests records.short
  have lasts := records.newest.lasts_iff records.sound now
  have routes : (∀ i target d, event = .task (.advance i) → t.node.tasks.get i = some (.routed target (.ok d)) →
      Current t.node.kad now target d) ↔
      ∀ i task, event = .task (.advance i) → s.node.tasks.get i = some task → l.Usable now i task := by
    constructor
    · rintro current i task rfl here
      cases move with
      | task other move =>
        cases move with
        | advance here' step =>
          cases here'.symm.trans here
          refine (records.usable_iff here step).mpr fun target d returned => ?_
          have current := current i target d rfl returned
          rwa [Current, DhtNode.advance_store step] at current
    · rintro usable i target d rfl returned
      cases move with
      | task other move =>
        cases move with
        | advance here step =>
          rw [Current, DhtNode.advance_store step]
          exact (records.usable_iff here step).mp (usable i _ rfl here) target d returned
  constructor
  · intro right
    exact ⟨keeps.mp right.newest, fun key reads => (lasts key).mpr (serves.mp right.served key reads), routes.mp right.routed⟩
  · intro upToDate
    exact ⟨keeps.mpr upToDate.stores, serves.mpr fun key reads => (lasts key).mp (upToDate.asks key reads),
      routes.mpr upToDate.routes⟩

theorem Records.caching_latest {a : Recorded} {now : UInt64} {i : Nat} {task : Task} (records : Records C a)
    (here : a.1.node.tasks.get i = some task) (usable : a.2.Usable now i task) {target : NodeId} {d : Descriptor}
    (caches : a.1.node.caching task = some (target, d)) : Latest a.2.accepted target d := by
  unfold DhtNode.caching at caches
  split at caches
  next target' =>
    obtain ⟨stored, hit, same⟩ := Option.map_eq_some_iff.mp caches
    cases same
    exact (records.newest.latest_iff records.sound d).mpr
      fun stored there => Option.some.inj (hit.symm.trans there) ▸ UInt64.le_refl _
  next target' result =>
    obtain ⟨value, rfl, same⟩ := Option.map_eq_some_iff.mp caches
    cases same
    exact (usable d (records.answered i target d here)).2
  next => cases caches

theorem Records.step {a b : Recorded} {label : UInt64 × ServingEvent} (records : Records C a)
    (step : Such (RecordStep C) (UpToDate C) a label b) : Records C b := by
  have newest := ((rightRecords_iff records step.1).mpr step.2).newest
  obtain ⟨s, l⟩ := a
  obtain ⟨t, l'⟩ := b
  obtain ⟨now, event⟩ := label
  obtain ⟨⟨move, noted⟩, upToDate⟩ := step
  dsimp only at move noted
  subst noted
  have old {target : NodeId} {d : Descriptor} {n : Nat} (before : l.cached.get target = some (d, n)) :
      n ≤ (l.note C s event).accepted.length ∧ Latest ((l.note C s event).accepted.take n) target d := by
    obtain ⟨within, latest⟩ := records.within target d n before
    rw [Ledger.note, List.length_append, List.take_append_of_le_length within]
    exact ⟨Nat.le_add_right_of_le within, latest⟩
  refine ⟨move.sound records.sound, move.requests records.requests, move.short records.short, newest, ?_, ?_, ?_⟩
  · intro target
    rw [move.cache]
    dsimp only [Ledger.note]
    cases s.caching event with
    | none => exact records.cached target
    | some copy =>
      rw [Table.get_insert, Table.get_insert]
      split
      · rfl
      · exact records.cached target
  · intro target d n cached
    dsimp only [Ledger.note] at cached
    split at cached
    next target' d' caches =>
      rcases Table.get_insert_some cached with ⟨rfl, same⟩ | ⟨-, before⟩
      · cases same
        rw [Ledger.note, List.length_append, List.take_left]
        obtain ⟨i, task, rfl, here, caches⟩ := Serving.caching_cases caches
        exact ⟨Nat.le_add_right _ _, records.caching_latest here (upToDate.routes i task rfl here) caches⟩
      · exact old before
    next => exact old cached
  · intro i target d found
    dsimp only [Ledger.note]
    rcases move.found found with answer | ⟨before, other⟩
    · rw [answer]
      exact Table.get_insert_self ..
    · split
      next j d' answer =>
        by_cases same : i = j
        · exact absurd (same ▸ answer) (other d')
        · exact (Table.get_insert_of_ne _ _ same).trans (records.answered i target d before)
      next => exact records.answered i target d before

theorem records_spawn {identity : NodeIdentity C} {ownDesc : Descriptor} (verified : ownDesc.Verified C)
    (signed : Descriptor.SignedBy identity ownDesc) : Records C (.spawn identity ownDesc) where
  sound := DhtNode.sound_spawn verified signed []
  requests := nofun
  short := nofun
  newest := by
    refine ⟨fun key d here => ?_, fun old member => ?_⟩
    · rcases Table.get_insert_some here with ⟨-, rfl⟩ | ⟨-, none⟩
      · exact List.mem_singleton_self _
      · cases none
    · rw [List.mem_singleton.mp member, signed.fields.1]
      exact ⟨ownDesc, Table.get_insert_self .., UInt64.le_refl _⟩
  cached := fun _ => rfl
  within := nofun
  answered := nofun

/-- At any times, under any datagrams and any schedule: the store keeps the latest of all that came in, no expired
descriptor is served or returned, and none that is older than the stored one is returned, exactly as long as every
STORE is as late as those before it, and what is asked for or routed with has neither expired nor been overtaken. -/
theorem records_iff (identity : NodeIdentity C) (ownDesc : Descriptor)
    (verifies : ∀ key msg, C.verify (C.verifyingKey key) msg (C.sign key msg) = true)
    (signed : Descriptor.SignedBy identity ownDesc) (events : List (UInt64 × ServingEvent)) (t : Recorded) :
    Run (Such (RecordStep C) (RightRecords C)) (.spawn identity ownDesc) events t ↔
      Run (Such (RecordStep C) (UpToDate C)) (.spawn identity ownDesc) events t :=
  (Run.such_iff (Records C) (fun _ _ _ records step => records.step step)
    (fun _ _ _ records step => (rightRecords_iff records step).symm)
    (records_spawn (signed.verified_of verifies) signed)).symm

end

namespace Transparent

open Nbf.Crypto.Transparent

/-- A route is looked up while the handler of the STORE is still to merge the contact. -/
theorem alone_records : ∃ events t, Run (Such (RecordStep crates) (RightRecords crates))
    (.spawn (identity 1) (descriptor 1 9100)) events t ∧
    t.1.node.tasks.get 0 = some (.routed known.nodeId (.ok (descriptor 20 9101))) := by
  obtain ⟨data, decoded, -, -⟩ := alone_learns
  obtain ⟨received, kept, -⟩ := Serving.store_steps (s := ⟨alone, .empty⟩) (j := 0) rfl known.addr decoded
  let stored : DhtNode := { alone with kad := alone.kad.keep (descriptor 20 9101) }
  let handlers : Table Nat Handler := Table.empty.insert 0 (.merge (descriptor 20 9101))
  let ledger : Ledger := ⟨[descriptor 1 9100, descriptor 20 9101], .empty, .empty⟩
  have noted : ledger = Ledger.note crates ⟨[descriptor 1 9100], .empty, .empty⟩
      ⟨alone, Table.empty.insert 0 (.begin known.addr (recvFrom data))⟩ (.handle 0) := by
    simp [ledger, Ledger.note, Serving.storing, Serving.caching, Serving.answering, decoded]
  have first : Such (RecordStep crates) (UpToDate crates) (.spawn (identity 1) (descriptor 1 9100))
      (5, .receive 0 known.addr data) (⟨alone, Table.empty.insert 0 (.begin known.addr (recvFrom data))⟩,
        ⟨[descriptor 1 9100], .empty, .empty⟩) := ⟨⟨received, rfl⟩, .of_none rfl rfl (by simp)⟩
  have second : Such (RecordStep crates) (UpToDate crates) (⟨alone, Table.empty.insert 0 (.begin known.addr (recvFrom data))⟩,
      ⟨[descriptor 1 9100], .empty, .empty⟩) (5, .handle 0) (⟨stored, handlers⟩, ledger) := by
    refine ⟨⟨kept, noted⟩, fun desc storing => ?_, fun key reads => ?_, by simp⟩
    · simp only [Serving.storing, Table.get_insert_self, decoded, Option.some.injEq] at storing
      subst storing
      intro other member named
      rw [List.mem_singleton.mp member] at named
      exact absurd named (by decide)
    · simp [Serving.reading] at reads
  have third : Such (RecordStep crates) (UpToDate crates) (⟨stored, handlers⟩, ledger)
      (6, .task (.start 0 (.routeCache known.nodeId))) (⟨stored.put 0 (.routeCache known.nodeId), handlers⟩, ledger) :=
    ⟨⟨.task (by simp) (.start rfl (.lookupRoute _)), rfl⟩, .of_none rfl rfl (by simp)⟩
  let missed : DhtNode := (stored.put 0 (.routeCache known.nodeId)).put 0 (.routeStore known.nodeId)
  have fourth : Such (RecordStep crates) (UpToDate crates) (⟨stored.put 0 (.routeCache known.nodeId), handlers⟩, ledger)
      (7, .task (.advance 0)) (⟨missed, handlers⟩, ledger) := by
    refine ⟨⟨.task (by simp) (.advance (Table.get_insert_self ..) rfl), rfl⟩, by simp [Serving.storing],
      by simp [Serving.reading], ?_⟩
    rintro _ _ ⟨⟩ here
    cases (Table.get_insert_self ..).symm.trans here
    intro d n cached
    cases cached
  have hit : missed.kad.store.get known.nodeId = some (descriptor 20 9101) := Table.get_insert_self ..
  have returns : missed.advance 0 (.routeStore known.nodeId) =
      some ({ missed with dhtCache := missed.dhtCache.insert known.nodeId (descriptor 20 9101) }.put 0
        (.routed known.nodeId (.ok (descriptor 20 9101)))) := by
    simp only [DhtNode.advance, hit]
  have step : Serving.Step crates ⟨missed, handlers⟩ (.task (.advance 0)) ⟨_, handlers⟩ :=
    .task (by simp) (.advance (Table.get_insert_self ..) returns)
  have fifth := RecordStep.of step 86400 ledger
  have lasts : ledger.Lasts 86400 known.nodeId := fun d member named =>
    ⟨descriptor 20 9101, by simp [ledger], rfl, by decide⟩
  have run := ((((Run.single first).snoc second).snoc third).snoc fourth).snoc
    ⟨fifth, by simp [Serving.storing], by simp [Serving.reading], by
      rintro _ _ ⟨⟩ here
      cases (Table.get_insert_self ..).symm.trans here
      exact lasts⟩
  exact ⟨_, _, (records_iff (identity 1) (descriptor 1 9100) lawful.verify_sign (descriptor_signed 1 9100) _ _).mpr run,
    Table.get_insert_self ..⟩

/-- An old descriptor that is sent again replaces the newer one. -/
theorem replay_kept : ∃ events t, Run (RecordStep crates) (.spawn (identity 1) (descriptor 1 9100)) events t ∧
    dated 20 9101 5 ∈ t.2.accepted ∧ (dated 20 9101 5).nodeId = (identity 20).nodeId ∧
    t.1.node.kad.store.get (identity 20).nodeId = some (dated 20 9101 0) ∧ (dated 20 9101 0).ts < (dated 20 9101 5).ts := by
  obtain ⟨new, -, decodedNew⟩ := rpcDecode_recvFrom (by decide) (rpcDecode_store ((dated_signed 20 9101 5).verified lawful))
  obtain ⟨old, -, decodedOld⟩ := rpcDecode_recvFrom (by decide) (rpcDecode_store ((dated_signed 20 9101 0).verified lawful))
  obtain ⟨received, kept, merged⟩ := Serving.store_steps (s := ⟨alone, .empty⟩) (j := 0) rfl known.addr decodedNew
  let learned : DhtNode := { alone with kad := (alone.kad.keep (dated 20 9101 5)).tryMerge [Contact.fromDesc (dated 20 9101 5)] }
  obtain ⟨received', kept', -⟩ := Serving.store_steps (s := ⟨learned, .empty⟩) (j := 0) rfl known.addr decodedOld
  have run := (((Run.single (RecordStep.of received 10 ⟨[descriptor 1 9100], .empty, .empty⟩)).snoc (.of kept 10 _)).snoc
    (.of merged 10 _)).snoc (.of received' 11 _)
  refine ⟨_, _, run.snoc (.of kept' 11 _), ?_, rfl, Table.get_insert_self .., by decide⟩
  simp [Ledger.note, Serving.storing, decodedNew]

end Transparent
end Nbf.Dht

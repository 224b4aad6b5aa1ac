import Nbf.Crypto.Transparent
import Nbf.Library.Run
import Nbf.Net.Onion

/-! `relay::handle` in many tasks at once.

The receive loop spawns a task for every cell. A task reads a copy of the entry
under one lock and decides on it, writes `last_fwd` under a later lock if it has
peeled a forward cell, and then sends. Between these steps any other task runs.
There is no CREATE and no DESTROY here.
-/

set_option autoImplicit false

namespace Nbf.Net

open Nbf.Library Nbf.Crypto

/-- What is still to do for one cell. -/
inductive Task where
  | arrived (src : SocketAddr) (cell : Cell)
  /-- A forward cell was peeled on this copy; `last_fwd` is still to be written. -/
  | decided (cid : UInt32) (copy : CircuitEntry) (seq : UInt32) (effects : List Effect)
  /-- What is still to be sent, and the forward cell it comes from. -/
  | sending (from? : Option (UInt32 × UInt32)) (effects : List Effect)
  | done

inductive Act where
  | arrive (i : Nat) (src : SocketAddr) (cell : Cell)
  | read (i : Nat)
  | write (i : Nat)
  | send (i : Nat)

structure Tasks where
  circuits : Table UInt32 CircuitEntry
  tasks : Table Nat Task
  /-- The forward cells accepted so far. -/
  accepted : List (UInt32 × UInt32)
  /-- The forward cells sent on, or echoed, so far. -/
  forwarded : List (UInt32 × UInt32)
  sent : List Effect

variable (C : Crates)

/-- The first locked block, and what is decided on the copy. -/
def readEntry (circuits : Table UInt32 CircuitEntry) (src : SocketAddr) (cell : Cell) : Task :=
  match parseRelay cell.payload with
  | .ok msg =>
    match circuits.get cell.cid with
    | none => .done
    | some copy =>
      let decision := relayDecide C copy src msg
      if decision.accepted then .decided cell.cid copy msg.seq decision.effects else .sending none decision.effects
  | _ => .done

inductive Tasks.Step : Tasks → Act → Tasks → Prop where
  | arrive {s : Tasks} {i : Nat} (src : SocketAddr) (cell : Cell) : s.tasks.get i = none →
      Step s (.arrive i src cell) { s with tasks := s.tasks.insert i (.arrived src cell) }
  | read {s : Tasks} {i : Nat} {src : SocketAddr} {cell : Cell} : s.tasks.get i = some (.arrived src cell) →
      Step s (.read i) { s with tasks := s.tasks.insert i (readEntry C s.circuits src cell) }
  | write {s : Tasks} {i : Nat} {cid seq : UInt32} {copy : CircuitEntry} {effects : List Effect} :
      s.tasks.get i = some (.decided cid copy seq effects) →
      Step s (.write i) { s with circuits := writeLastFwd copy s.circuits cid seq,
                                 tasks := s.tasks.insert i (.sending (some (cid, seq)) effects),
                                 accepted := s.accepted ++ [(cid, seq)] }
  | send {s : Tasks} {i : Nat} {from? : Option (UInt32 × UInt32)} {effects : List Effect} :
      s.tasks.get i = some (.sending from? effects) →
      Step s (.send i) { s with tasks := s.tasks.insert i .done,
                                forwarded := s.forwarded ++ (if effects = [] then [] else from?.toList),
                                sent := s.sent ++ effects }

namespace Tasks

def start (circuits : Table UInt32 CircuitEntry) : Tasks :=
  { circuits, tasks := .empty, accepted := [], forwarded := [], sent := [] }

def lastFwd (s : Tasks) (cid : UInt32) : Option UInt32 := (s.circuits.get cid).bind CircuitEntry.lastFwd?

/-- No forward cell is accepted twice, whether or not anything is sent for it, and no `last_fwd` goes down. -/
def Sound (s : Tasks) (_ : Act) (t : Tasks) : Prop :=
  t.accepted.Nodup ∧ ∀ cid before after, s.lastFwd cid = some before → t.lastFwd cid = some after → before ≤ after

/-- When a task writes its sequence number, `last_fwd` is still below it. -/
def Ahead (s : Tasks) (act : Act) (_ : Tasks) : Prop :=
  match act with
  | .write i => ∀ cid copy seq effects, s.tasks.get i = some (.decided cid copy seq effects) →
    ∀ last, s.lastFwd cid = some last → last < seq
  | _ => True

structure Consistent (circuits : Table UInt32 CircuitEntry) (s : Tasks) : Prop where
  /-- A `last_fwd` is the one at the start or that of an accepted cell, and above both. -/
  reached : ∀ cid last, s.lastFwd cid = some last →
    (start circuits).lastFwd cid = some last ∨ (cid, last) ∈ s.accepted
  covered : ∀ cid seq last, (cid, seq) ∈ s.accepted → s.lastFwd cid = some last → seq ≤ last
  /-- A task that has decided knows the entry up to its `last_fwd`, and is above the start's. -/
  known : ∀ i cid copy seq effects, s.tasks.get i = some (.decided cid copy seq effects) →
    ∃ entry last, s.circuits.get cid = some entry ∧ entry.lastFwd? = some last ∧
      entry.withLastFwd 0 = copy.withLastFwd 0 ∧ copy.lastFwd?.isSome
  above : ∀ i cid copy seq effects, s.tasks.get i = some (.decided cid copy seq effects) →
    ∀ last, (start circuits).lastFwd cid = some last → last < seq
  rising : ∀ cid before last, (start circuits).lastFwd cid = some before → s.lastFwd cid = some last →
    before ≤ last
  distinct : s.accepted.Nodup
  /-- A forward cell is in the hands of one task until it is forwarded. -/
  carried : ∀ i cell effects, s.tasks.get i = some (.sending (some cell) effects) → cell ∈ s.accepted ∧ cell ∉ s.forwarded
  apart : ∀ i j cell effects effects', s.tasks.get i = some (.sending (some cell) effects) →
    s.tasks.get j = some (.sending (some cell) effects') → i = j
  within : ∀ cell ∈ s.forwarded, cell ∈ s.accepted
  once : s.forwarded.Nodup

theorem consistent_start (circuits : Table UInt32 CircuitEntry) : Consistent circuits (start circuits) where
  reached _ _ here := .inl here
  covered _ _ _ member := by cases member
  known _ _ _ _ _ here := by cases here
  above _ _ _ _ _ here := by cases here
  rising _ _ _ here here' := UInt32.le_of_eq (Option.some.inj (here.symm.trans here'))
  distinct := .nil
  carried _ _ _ here := by cases here
  apart _ _ _ _ _ here := by cases here
  within _ member := by cases member
  once := .nil

variable {C}

theorem readEntry_decided {circuits : Table UInt32 CircuitEntry} {src : SocketAddr} {cell : Cell} {cid seq : UInt32}
    {copy : CircuitEntry} {effects : List Effect} (decided : readEntry C circuits src cell = .decided cid copy seq effects) :
    circuits.get cid = some copy ∧ ∃ last, copy.lastFwd? = some last ∧ last < seq := by
  unfold readEntry at decided
  split at decided
  · split at decided
    · cases decided
    · rename_i stored
      dsimp only at decided
      split at decided
      · rename_i accepted
        cases decided
        exact ⟨stored, relayDecide_accepted accepted⟩
      · cases decided
  · cases decided

theorem readEntry_sending {circuits : Table UInt32 CircuitEntry} {src : SocketAddr} {cell : Cell}
    {from? : Option (UInt32 × UInt32)} {effects : List Effect}
    (sending : readEntry C circuits src cell = .sending from? effects) : from? = none := by
  unfold readEntry at sending
  split at sending
  · split at sending
    · cases sending
    · dsimp only at sending
      split at sending
      · cases sending
      · cases sending
        rfl
  · cases sending

namespace Consistent

variable {circuits : Table UInt32 CircuitEntry} {s : Tasks}

theorem move (consistent : Consistent circuits s) {i : Nat} {task : Task}
    (known : ∀ cid copy seq effects, task = .decided cid copy seq effects →
      s.circuits.get cid = some copy ∧ ∃ last, copy.lastFwd? = some last ∧ last < seq)
    (idle : ∀ cell effects, task ≠ .sending (some cell) effects) :
    Consistent circuits { s with tasks := s.tasks.insert i task } where
  reached := consistent.reached
  covered := consistent.covered
  known j cid copy seq effects here := by
    rcases Table.get_insert_some here with ⟨-, new⟩ | ⟨-, old⟩
    · obtain ⟨stored, last, has, -⟩ := known cid copy seq effects new
      exact ⟨copy, last, stored, has, rfl, has ▸ rfl⟩
    · exact consistent.known j cid copy seq effects old
  above j cid copy seq effects here before began := by
    rcases Table.get_insert_some here with ⟨-, new⟩ | ⟨-, old⟩
    · obtain ⟨stored, last, has, less⟩ := known cid copy seq effects new
      have now : s.lastFwd cid = some last := by rw [Tasks.lastFwd, stored, Option.bind_some, has]
      exact UInt32.lt_of_le_of_lt (consistent.rising cid before last began now) less
    · exact consistent.above j cid copy seq effects old before began
  rising := consistent.rising
  distinct := consistent.distinct
  carried j cell effects here := by
    rcases Table.get_insert_some here with ⟨-, new⟩ | ⟨-, old⟩
    · exact absurd new (idle cell effects)
    · exact consistent.carried j cell effects old
  apart j k cell effects effects' here here' := by
    rcases Table.get_insert_some here with ⟨-, new⟩ | ⟨-, old⟩
    · exact absurd new (idle cell effects)
    · rcases Table.get_insert_some here' with ⟨-, new⟩ | ⟨-, old'⟩
      · exact absurd new (idle cell effects')
      · exact consistent.apart j k cell effects effects' old old'
  within := consistent.within
  once := consistent.once

theorem writes (consistent : Consistent circuits s) {i : Nat} {cid seq : UInt32} {copy : CircuitEntry} {effects : List Effect}
    (decision : s.tasks.get i = some (.decided cid copy seq effects)) :
    (∃ last, s.lastFwd cid = some last) ∧
      ((writeLastFwd copy s.circuits cid seq).get cid).bind CircuitEntry.lastFwd? = some seq ∧
      ∀ c, c ≠ cid → ((writeLastFwd copy s.circuits cid seq).get c).bind CircuitEntry.lastFwd? = s.lastFwd c := by
  obtain ⟨entry, last, stored, has, same, kind⟩ := consistent.known i cid copy seq effects decision
  rw [writeLastFwd_of_copy stored same kind]
  refine ⟨⟨last, by rw [Tasks.lastFwd, stored, Option.bind_some, has]⟩, ?_, fun c other => ?_⟩
  · rw [Table.get_insert_self, Option.bind_some, CircuitEntry.lastFwd?_withLastFwd has]
  · rw [Table.get_insert_of_ne _ _ other, Tasks.lastFwd]

theorem write (consistent : Consistent circuits s) {i : Nat} {cid seq : UInt32} {copy : CircuitEntry} {effects : List Effect}
    (decision : s.tasks.get i = some (.decided cid copy seq effects)) (ahead : ∀ last, s.lastFwd cid = some last → last < seq) :
    Consistent circuits { s with circuits := writeLastFwd copy s.circuits cid seq,
                                 tasks := s.tasks.insert i (.sending (some (cid, seq)) effects),
                                 accepted := s.accepted ++ [(cid, seq)] } := by
  let t : Tasks := { s with circuits := writeLastFwd copy s.circuits cid seq,
                            tasks := s.tasks.insert i (.sending (some (cid, seq)) effects),
                            accepted := s.accepted ++ [(cid, seq)] }
  change Consistent circuits t
  obtain ⟨⟨last, now⟩, written, kept⟩ : _ ∧ t.lastFwd cid = some seq ∧ ∀ c, c ≠ cid → t.lastFwd c = s.lastFwd c :=
    consistent.writes decision
  obtain ⟨entry, _, stored, has, same, kind⟩ := consistent.known i cid copy seq effects decision
  have circuits_t : t.circuits = s.circuits.insert cid (entry.withLastFwd seq) := writeLastFwd_of_copy stored same kind seq
  have less := ahead last now
  -- Every accepted cell is at most `last_fwd`, and this one is above it.
  have fresh : (cid, seq) ∉ s.accepted := fun again =>
    UInt32.not_le.mpr less (consistent.covered cid seq last again now)
  have older (cell : UInt32 × UInt32) (member : cell ∈ s.accepted) : cell ≠ (cid, seq) := by
    rintro rfl
    exact fresh member
  exact
    { reached := fun c l here => by
        by_cases at_cid : c = cid
        · subst at_cid
          rw [← Option.some.inj (written.symm.trans here)]
          exact .inr (List.mem_append_right _ (List.mem_singleton_self _))
        · exact (consistent.reached c l ((kept c at_cid).symm.trans here)).imp id (List.mem_append_left _)
      covered := fun c q l member here => by
        by_cases at_cid : c = cid
        · subst at_cid
          rw [← Option.some.inj (written.symm.trans here)]
          rcases List.mem_append.mp member with old | new
          · exact UInt32.le_of_lt (UInt32.lt_of_le_of_lt (consistent.covered c q last old now) less)
          · exact UInt32.le_of_eq (congrArg Prod.snd (List.mem_singleton.mp new))
        · rcases List.mem_append.mp member with old | new
          · exact consistent.covered c q l old ((kept c at_cid).symm.trans here)
          · exact absurd (congrArg Prod.fst (List.mem_singleton.mp new)) at_cid
      known := fun j c other q rest decided => by
        rcases Table.get_insert_some decided with ⟨-, new⟩ | ⟨-, old⟩
        · cases new
        · obtain ⟨entry', last', stored', has', same', kind'⟩ := consistent.known j c other q rest old
          by_cases at_cid : c = cid
          · subst at_cid
            rw [stored, Option.some.injEq] at stored'
            subst stored'
            exact ⟨_, seq, by rw [circuits_t, Table.get_insert_self], CircuitEntry.lastFwd?_withLastFwd has seq,
              (entry.withLastFwd_withLastFwd seq 0).trans same', kind'⟩
          · exact ⟨entry', last', by rw [circuits_t, Table.get_insert_of_ne _ _ at_cid, stored'], has', same', kind'⟩
      above := fun j c other q rest decided => by
        rcases Table.get_insert_some decided with ⟨-, new⟩ | ⟨-, old⟩
        · cases new
        · exact consistent.above j c other q rest old
      rising := fun c before l began here => by
        by_cases at_cid : c = cid
        · subst at_cid
          rw [← Option.some.inj (written.symm.trans here)]
          exact UInt32.le_of_lt (consistent.above i c copy seq effects decision before began)
        · exact consistent.rising c before l began ((kept c at_cid).symm.trans here)
      distinct := List.nodup_append.mpr ⟨consistent.distinct, List.pairwise_singleton _ _, fun cell member _ last => by
        rw [List.mem_singleton.mp last]
        exact older cell member⟩
      carried := fun j cell rest sending => by
        rcases Table.get_insert_some sending with ⟨-, new⟩ | ⟨-, old⟩
        · cases new
          exact ⟨List.mem_append_right _ (List.mem_singleton_self _), fun again => fresh (consistent.within _ again)⟩
        · obtain ⟨member, ahead⟩ := consistent.carried j cell rest old
          exact ⟨List.mem_append_left _ member, ahead⟩
      apart := fun j k cell rest rest' sending sending' => by
        rcases Table.get_insert_some sending with ⟨at_j, new⟩ | ⟨-, old⟩
        · rcases Table.get_insert_some sending' with ⟨at_k, -⟩ | ⟨-, old'⟩
          · rw [at_j, at_k]
          · cases new
            exact absurd (consistent.carried k _ rest' old').1 fresh
        · rcases Table.get_insert_some sending' with ⟨-, new⟩ | ⟨-, old'⟩
          · cases new
            exact absurd (consistent.carried j _ rest old).1 fresh
          · exact consistent.apart j k cell rest rest' old old'
      within := fun cell member => List.mem_append_left _ (consistent.within cell member)
      once := consistent.once }

theorem send (consistent : Consistent circuits s) {i : Nat} {from? : Option (UInt32 × UInt32)} {effects : List Effect}
    (here : s.tasks.get i = some (.sending from? effects)) :
    Consistent circuits { s with tasks := s.tasks.insert i .done,
                                 forwarded := s.forwarded ++ (if effects = [] then [] else from?.toList),
                                 sent := s.sent ++ effects } := by
  have moved : Consistent circuits { s with tasks := s.tasks.insert i .done } :=
    consistent.move (fun _ _ _ _ decided => by cases decided) fun _ _ sending => by cases sending
  -- What becomes forwarded is the one cell in the hands of this task.
  have mine (cell : UInt32 × UInt32) (member : cell ∈ (if effects = [] then [] else from?.toList)) : from? = some cell := by
    split at member
    · cases member
    · exact Option.mem_toList.mp member
  have single : (if effects = [] then [] else from?.toList).Nodup := by
    split
    · exact .nil
    · cases from? <;> simp
  exact
    { reached := moved.reached, covered := moved.covered, known := moved.known, above := moved.above,
      rising := moved.rising, distinct := moved.distinct, apart := moved.apart
      carried := fun j cell rest sending => by
        rcases Table.get_insert_some sending with ⟨-, new⟩ | ⟨other, old⟩
        · cases new
        · obtain ⟨member, ahead⟩ := consistent.carried j cell rest old
          refine ⟨member, fun again => ?_⟩
          rcases List.mem_append.mp again with before | now
          · exact ahead before
          · rw [mine cell now] at here
            exact other (consistent.apart j i cell rest effects old here)
      within := fun cell member => by
        rcases List.mem_append.mp member with before | now
        · exact consistent.within cell before
        · rw [mine cell now] at here
          exact (consistent.carried i cell effects here).1
      once := List.nodup_append.mpr ⟨consistent.once, single, fun cell member other now same => by
        subst same
        rw [mine cell now] at here
        exact (consistent.carried i cell effects here).2 member⟩ }

theorem step (consistent : Consistent circuits s) {act : Act} {t : Tasks} (step : Such (Step C) Ahead s act t) :
    Consistent circuits t := by
  obtain ⟨move, ahead⟩ := step
  cases move with
  | arrive src cell _ => exact consistent.move (fun _ _ _ _ decided => by cases decided) fun _ _ sending => by cases sending
  | read here =>
    exact consistent.move (fun _ _ _ _ decided => readEntry_decided decided) fun _ _ sending => by
      cases readEntry_sending sending
  | write here => exact consistent.write here (ahead _ _ _ _ here)
  | send here => exact consistent.send here

end Consistent

/-- One step, in a consistent state: it is sound exactly when it is no write behind `last_fwd`. -/
theorem ahead_iff_sound {circuits : Table UInt32 CircuitEntry} {s t : Tasks} {act : Act} (consistent : Consistent circuits s)
    (step : Step C s act t) : Ahead s act t ↔ Sound s act t := by
  constructor
  · intro ahead
    refine ⟨(consistent.step ⟨step, ahead⟩).distinct, fun c before now had has => ?_⟩
    cases step with
    | @write i cid seq copy effects here =>
      obtain ⟨-, written, kept⟩ := consistent.writes here
      by_cases at_cid : c = cid
      · subst at_cid
        rw [← Option.some.inj (written.symm.trans has)]
        exact UInt32.le_of_lt (ahead _ _ _ _ here before had)
      · exact UInt32.le_of_eq (Option.some.inj (had.symm.trans ((kept c at_cid).symm.trans has)))
    | arrive => exact UInt32.le_of_eq (Option.some.inj (had.symm.trans has))
    | read => exact UInt32.le_of_eq (Option.some.inj (had.symm.trans has))
    | send => exact UInt32.le_of_eq (Option.some.inj (had.symm.trans has))
  · rintro ⟨distinct, rising⟩
    cases step with
    | @write i cid seq copy effects here =>
      intro cid' copy' seq' effects' here' last now
      rw [here, Option.some.injEq] at here'
      cases here'
      obtain ⟨-, written, -⟩ := consistent.writes here
      -- Not above would be equal, and so the start's or an accepted cell's.
      rcases UInt32.lt_or_eq_of_le (rising cid last seq now written) with less | rfl
      · exact less
      · rcases consistent.reached cid last now with began | again
        · exact consistent.above i cid copy last effects here last began
        · have twice := (List.nodup_append.mp distinct).2.2 _ again _ (List.mem_singleton_self _)
          exact absurd rfl twice
    | arrive => trivial
    | read => trivial
    | send => trivial

/-- Any number of tasks in any order, from any table. No forward cell is accepted twice and no
`last_fwd` goes down, exactly, when every write finds `last_fwd` still below what it writes; and
then no forward cell is sent on twice. -/
theorem sound_iff_ahead (circuits : Table UInt32 CircuitEntry) (acts : List Act) (t : Tasks) :
    (Run (Such (Step C) Sound) (start circuits) acts t ↔ Run (Such (Step C) Ahead) (start circuits) acts t) ∧
      (Run (Such (Step C) Ahead) (start circuits) acts t → t.forwarded.Nodup) := by
  refine ⟨(Run.such_iff (Consistent circuits) (fun _ _ _ consistent step => consistent.step step)
    (fun _ _ _ consistent step => ahead_iff_sound consistent step) (consistent_start circuits)).symm, fun run => ?_⟩
  exact (run.invariant (Consistent circuits) (fun _ _ _ consistent step => consistent.step step)
    (consistent_start circuits)).once

/-- A task that nothing interrupts does what `handleRelay` does. -/
theorem run_alone (node : Node C) (src : SocketAddr) (cell : Cell) :
    ∃ acts t, Run (Step C) (start node.circuits) acts t ∧ t.circuits = (node.handleRelay src cell).1.circuits ∧
      t.sent = (node.handleRelay src cell).2 := by
  let tasks : Table Nat Task := (Table.empty.insert 0 (.arrived src cell)).insert 0 (readEntry C node.circuits src cell)
  let s : Tasks := { start node.circuits with tasks }
  have read : Run (Step C) (start node.circuits) [.arrive 0 src cell, .read 0] s :=
    (Run.single (.read (Table.get_insert_self ..))).cons (.arrive src cell rfl)
  have holds : s.tasks.get 0 = some (readEntry C node.circuits src cell) := Table.get_insert_self ..
  unfold Node.handleRelay
  unfold readEntry at holds
  cases parsed : parseRelay cell.payload with
  | error _ => exact ⟨_, s, read, rfl, rfl⟩
  | panic => exact ⟨_, s, read, rfl, rfl⟩
  | ok msg =>
    cases stored : node.circuits.get cell.cid with
    | none => exact ⟨_, s, read, rfl, rfl⟩
    | some entry =>
      simp only [parsed, stored] at holds
      by_cases accepted : (relayDecide C entry src msg).accepted
      · rw [if_pos accepted] at holds
        refine ⟨_, _, .snoc (.snoc read (.write holds)) (.send (Table.get_insert_self ..)), ?_, List.nil_append _⟩
        exact (if_pos accepted).symm
      · rw [if_neg accepted] at holds
        refine ⟨_, _, .snoc read (.send holds), ?_, List.nil_append _⟩
        exact (if_neg accepted).symm

end Tasks

namespace Transparent

open Nbf.Crypto.Transparent

def loneTerminal : CircuitEntry := .terminal (.zeros 16) (.zeros 32) (.zeros 32) ⟨1, localhost 9200⟩ 0

def loneTable : Table UInt32 CircuitEntry := Table.empty.insert 1 loneTerminal

def loneEcho : Cell := ⟨1, .relay, 0, relayPayload ⟨100, .echo, 0, sealOnion crates [.zeros 32] (.zeros 16) 100 []⟩⟩

theorem readEntry_loneEcho : ∃ reply, readEntry crates loneTable (localhost 9200) loneEcho =
    .decided 1 loneTerminal 100 [.sendCell (localhost 9200) reply] := by
  have fresh : ¬ (localhost 9200 ≠ localhost 9200 ∨ (100 : UInt32) ≤ 0) := terminal_passes (by decide)
  have decision : ∃ reply, relayDecide crates loneTerminal (localhost 9200)
      ⟨100, .echo, 0, sealOnion crates [.zeros 32] (.zeros 16) 100 []⟩ = .accept (some (localhost 9200, reply)) := by
    simp only [relayDecide, loneTerminal, if_neg fresh, openOnion_sealOnion lawful]
    exact ⟨_, rfl⟩
  obtain ⟨reply, decision⟩ := decision
  have stored : loneTable.get 1 = some loneTerminal := Table.get_insert_self ..
  refine ⟨reply, ?_⟩
  simp only [readEntry, loneEcho, parseRelay_relayPayload, stored, decision]
  rfl

/-- Two tasks read `last_fwd` before either has written it: the cell is echoed twice. -/
theorem double_forward : ∃ acts t, Run (Tasks.Step crates) (Tasks.start loneTable) acts t ∧ ¬ t.forwarded.Nodup := by
  obtain ⟨reply, decided⟩ := readEntry_loneEcho
  have other (tasks : Table Nat Task) (a b : Task) : ((tasks.insert 0 a).insert 1 b).get 0 = some a := by
    rw [Table.get_insert_of_ne _ _ (by decide), Table.get_insert_self]
  have other' (tasks : Table Nat Task) (a b : Task) : ((tasks.insert 1 a).insert 0 b).get 1 = some a := by
    rw [Table.get_insert_of_ne _ _ (by decide), Table.get_insert_self]
  have both : Run (Tasks.Step crates) (Tasks.start loneTable) [.arrive 0 (localhost 9200) loneEcho,
      .arrive 1 (localhost 9200) loneEcho, .read 0, .read 1] _ :=
    .snoc (.snoc (.snoc (.snoc (.nil _) (.arrive _ _ rfl)) (.arrive _ _ rfl)) (.read rfl)) (.read rfl)
  have written := (both.snoc (.write ((other ..).trans (congrArg some decided)))).snoc
    (.write ((other' ..).trans (congrArg some decided)))
  exact ⟨_, _, (written.snoc (.send (other ..))).snoc (.send (other' ..)), by simp [Tasks.start]⟩

end Transparent
end Nbf.Net

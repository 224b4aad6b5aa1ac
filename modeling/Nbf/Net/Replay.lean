import Nbf.Net.Onion
import Nbf.Net.Ownership

/-! Replay protection over the life of a node.

`last_fwd` lives in the circuit entry, and a CREATE that completes stores a new
entry with `last_fwd` 0, also when it has completed before. The history is the
list of all forward cells the node has peeled, as tag and sequence number.
-/

set_option autoImplicit false

namespace Nbf.Net

open Nbf.Library Nbf.Crypto

variable {C : Crates}

abbrev History := List (Octets 16 × UInt32)

def Running.peeled (r : Running C) : Event → History
  | .recv _ src cell =>
    if cell.cmd = .relay then
      match r.node.relays src cell with
      | some (msg, entry, decision) => if decision.accepted then [(entry.tag, msg.seq)] else []
      | none => []
    else []
  | _ => []

/-- The sequence numbers peeled for one tag only go up. -/
def Increasing (history : History) : Prop := history.Pairwise fun earlier later => earlier.1 = later.1 → earlier.2 < later.2

/-- What ties the history to the entries: each covers the cells of its tag, and no two share one. -/
structure Guarded (circuits : Table UInt32 CircuitEntry) (history : History) : Prop where
  increasing : Increasing history
  covered : ∀ cid entry lastFwd, circuits.get cid = some entry → entry.lastFwd? = some lastFwd →
    ∀ peel ∈ history, peel.1 = entry.tag → peel.2 ≤ lastFwd
  single : ∀ cid cid' entry entry', circuits.get cid = some entry → circuits.get cid' = some entry' →
    entry.lastFwd?.isSome → entry'.lastFwd?.isSome → entry.tag = entry'.tag → cid = cid'

namespace Guarded

variable {circuits circuits' : Table UInt32 CircuitEntry} {history : History}

theorem of_fewer (guarded : Guarded circuits history)
    (fewer : ∀ cid entry, circuits'.get cid = some entry → entry.lastFwd?.isSome → circuits.get cid = some entry) :
    Guarded circuits' history where
  increasing := guarded.increasing
  covered cid entry lastFwd here has := guarded.covered cid entry lastFwd (fewer cid entry here (has ▸ rfl)) has
  single cid cid' entry entry' here here' has has' :=
    guarded.single cid cid' entry entry' (fewer cid entry here has) (fewer cid' entry' here' has') has has'

theorem create (guarded : Guarded circuits history) {cid : UInt32} {entry : CircuitEntry}
    (unpeeled : ∀ peel ∈ history, peel.1 ≠ entry.tag)
    (alone : ∀ c other, circuits.get c = some other → other.lastFwd?.isSome → other.tag = entry.tag → c = cid) :
    Guarded (circuits.insert cid entry) history where
  increasing := guarded.increasing
  covered c other lastFwd here has peel member tagged := by
    rcases Table.get_insert_some here with ⟨rfl, rfl⟩ | ⟨-, before⟩
    · exact absurd tagged (unpeeled peel member)
    · exact guarded.covered c other lastFwd before has peel member tagged
  single c c' other other' here here' has has' tagged := by
    rcases Table.get_insert_some here with ⟨rfl, rfl⟩ | ⟨-, before⟩
    · rcases Table.get_insert_some here' with ⟨rfl, rfl⟩ | ⟨-, before'⟩
      · rfl
      · exact (alone c' other' before' has' tagged.symm).symm
    · rcases Table.get_insert_some here' with ⟨rfl, rfl⟩ | ⟨-, before'⟩
      · exact alone c other before has tagged
      · exact guarded.single c c' other other' before before' has has' tagged

theorem accept (guarded : Guarded circuits history) {cid seq lastFwd : UInt32} {entry : CircuitEntry}
    (here : circuits.get cid = some entry) (has : entry.lastFwd? = some lastFwd) (above : lastFwd < seq) :
    Guarded (circuits.insert cid (entry.withLastFwd seq)) (history ++ [(entry.tag, seq)]) where
  increasing := by
    refine List.pairwise_append.mpr ⟨guarded.increasing, List.pairwise_singleton _ _, fun peel member last only tagged => ?_⟩
    rw [List.mem_singleton.mp only] at tagged ⊢
    exact UInt32.lt_of_le_of_lt (guarded.covered cid entry lastFwd here has peel member tagged) above
  covered c other lastFwd' here' has' peel member tagged := by
    rcases Table.get_insert_some here' with ⟨rfl, rfl⟩ | ⟨apart, before⟩
    · rw [CircuitEntry.lastFwd?_withLastFwd has, Option.some.injEq] at has'
      rw [CircuitEntry.tag_withLastFwd] at tagged
      rw [← has']
      rcases List.mem_append.mp member with old | new
      · exact UInt32.le_of_lt (UInt32.lt_of_le_of_lt (guarded.covered _ entry lastFwd here has peel old tagged) above)
      · rw [List.mem_singleton.mp new]
        exact UInt32.le_refl _
    · rcases List.mem_append.mp member with old | new
      · exact guarded.covered c other lastFwd' before has' peel old tagged
      · rw [List.mem_singleton.mp new] at tagged
        exact absurd (guarded.single c cid other entry before here (has' ▸ rfl) (has ▸ rfl) tagged.symm) apart
  single c c' other other' here₁ here₂ has₁ has₂ tagged := by
    -- The renewed entry has the tag of the one it replaces.
    have before (c : UInt32) (other : CircuitEntry)
        (stored : (circuits.insert cid (entry.withLastFwd seq)).get c = some other) (has' : other.lastFwd?.isSome) :
        ∃ old, circuits.get c = some old ∧ old.lastFwd?.isSome ∧ old.tag = other.tag := by
      rcases Table.get_insert_some stored with ⟨rfl, rfl⟩ | ⟨-, old⟩
      · exact ⟨entry, here, has ▸ rfl, (entry.tag_withLastFwd seq).symm⟩
      · exact ⟨other, old, has', rfl⟩
    obtain ⟨old, stored, holds, same⟩ := before c other here₁ has₁
    obtain ⟨old', stored', holds', same'⟩ := before c' other' here₂ has₂
    exact guarded.single c c' old old' stored stored' holds holds' (same.trans (tagged.trans same'.symm))

theorem empty : Guarded .empty [] where
  increasing := .nil
  covered _ _ _ here := by cases here
  single _ _ _ _ here := by cases here

end Guarded

/-! ## Over a run -/

namespace Running

abbrev Recorded (C : Crates) : Type := Running C × History

/-- A CREATE completes only for a tag of which nothing has been peeled yet, and no other cid of the
node holds an entry of. -/
def FirstCreate (s : Recorded C) (event : Event) (_ : Recorded C) : Prop :=
  match event with
  | .recv _ src cell => cell.cmd = .create → ∀ outcome, s.1.node.completes cell = some outcome →
    let tag := (s.1.node.createdEntry src cell.cid outcome).tag
    (∀ peel ∈ s.2, peel.1 ≠ tag) ∧
      ∀ cid entry, s.1.node.circuits.get cid = some entry → entry.lastFwd?.isSome → entry.tag = tag → cid = cell.cid
  | _ => True

theorem peeled_other {r : Running C} {lookup : Lookup} {src : SocketAddr} {cell : Cell} (other : cell.cmd ≠ .relay) :
    r.peeled (.recv lookup src cell) = [] := if_neg other

theorem guarded_recv {r : Running C} {history : History} (guarded : Guarded r.node.circuits history) {lookup : Lookup}
    {src : SocketAddr} {cell : Cell} {s' : Recorded C} (first : FirstCreate (r, history) (.recv lookup src cell) s') :
    Guarded (r.recv lookup src cell).node.circuits (history ++ r.peeled (.recv lookup src cell)) := by
  have circuits : (r.recv lookup src cell).node.circuits = _ := r.node.handleCell_circuits lookup src cell
  rw [circuits]
  cases cmd : cell.cmd with
  | create =>
    rw [peeled_other (by simp [cmd]), List.append_nil]
    cases completed : r.node.completes cell with
    | none => exact guarded
    | some outcome =>
      obtain ⟨unpeeled, alone⟩ := first cmd outcome completed
      exact guarded.create unpeeled alone
  | relay =>
    simp only [peeled, cmd, if_true]
    cases found : r.node.relays src cell with
    | none => simpa using guarded
    | some handled =>
      obtain ⟨msg, entry, decision⟩ := handled
      obtain ⟨-, stored, rfl⟩ := Node.relays_some found
      by_cases accepted : (relayDecide C entry src msg).accepted
      · obtain ⟨lastFwd, has, above⟩ := relayDecide_accepted accepted
        simp only [Decision.commit, accepted, if_true, writeLastFwd_same stored]
        exact guarded.accept stored has above
      · simpa [Decision.commit, accepted] using guarded
  | destroy =>
    rw [peeled_other (by simp [cmd]), List.append_nil]
    exact guarded.of_fewer fun cid entry here _ => Table.get_remove_some here
  | created => rw [peeled_other (by simp [cmd]), List.append_nil]; exact guarded
  | padding => rw [peeled_other (by simp [cmd]), List.append_nil]; exact guarded

theorem fewer_local {r r' : Running C} {event : Event} (step : Step r event r')
    (own : ∀ lookup src cell, event ≠ .recv lookup src cell) {cid : UInt32} {entry : CircuitEntry}
    (here : r'.node.circuits.get cid = some entry) (has : entry.lastFwd?.isSome) :
    r.node.circuits.get cid = some entry := by
  cases step with
  | recv lookup src cell => exact absurd rfl (own lookup src cell)
  | build calls step =>
    rcases step.moved calls with ⟨rng, pending, -, same⟩ | ⟨-, -, rfl⟩
    · rw [same] at here
      exact here
    · rcases Table.get_insert_some here with ⟨rfl, rfl⟩ | ⟨-, before⟩
      · cases has
      · exact before
  | openStream c stream tx =>
    simp only [Node.registerStream] at here
    split at here
    · rcases Table.get_insert_some here with ⟨rfl, rfl⟩ | ⟨-, before⟩
      · cases has
      · exact before
    · exact here
  | send stream rcmd msg _ =>
    simp only [Node.send] at here
    split at here <;> exact here
  | close _ =>
    simp only [Node.close] at here
    split at here
    · exact Table.get_remove_some here
    · exact here

theorem guarded_step {s s' : Recorded C} {event : Event} (guarded : Guarded s.1.node.circuits s.2)
    (step : Logged Step peeled s event s') (first : FirstCreate s event s') : Guarded s'.1.node.circuits s'.2 := by
  obtain ⟨r, history⟩ := s
  obtain ⟨r', history'⟩ := s'
  obtain ⟨move, rfl⟩ : Step r event r' ∧ history' = history ++ r.peeled event := step
  by_cases cell : ∃ lookup src cell, event = .recv lookup src cell
  -- A cell may store or renew an entry; what the node does itself only takes entries away.
  · obtain ⟨lookup, src, cell, rfl⟩ := cell
    cases move
    exact guarded_recv guarded first
  · have own : ∀ lookup src c, event ≠ .recv lookup src c := fun lookup src c same => cell ⟨lookup, src, c, same⟩
    have silent : r.peeled event = [] := by
      cases event with
      | recv lookup src c => exact absurd rfl (own lookup src c)
      | _ => rfl
    rw [silent, List.append_nil]
    exact guarded.of_fewer fun cid entry here has => fewer_local move own here has

/-- In every run in which a CREATE only ever completes for a tag of which no forward cell has been
peeled and no other entry exists, the sequence numbers peeled for each tag go up. -/
theorem peeled_increasing (seed : C.Rng) (events : List Event) (r : Running C) (history : History)
    (run : Run (Such (Logged Step peeled) FirstCreate) (Builds.spawn C seed, []) events (r, history)) : Increasing history := by
  have guarded := run.invariant (fun s => Guarded s.1.node.circuits s.2)
    (fun _ _ _ before step => guarded_step before step.1 step.2) .empty
  exact guarded.increasing

end Running

namespace Transparent

open Nbf.Crypto.Transparent

def soloForward (kFwd : Octets 32) (seq : UInt32) : Cell :=
  ⟨1, .relay, 0, relayPayload ⟨seq, .drop, 0, sealOnion crates [kFwd] (.zeros 16) seq []⟩⟩

def noLookup : Lookup := fun _ => .error .timeout

def soloRecv (cell : Cell) : Event := .recv noLookup (localhost 9200) cell

def soloEntry (kFwd kBwd : Octets 32) (lastFwd : UInt32) : CircuitEntry :=
  .terminal (.zeros 16) kFwd kBwd ⟨1, localhost 9200⟩ lastFwd

section

variable {kFwd kBwd : Octets 32} {r : Running crates} {lastFwd seq : UInt32}

theorem relays_soloForward (stored : r.node.circuits.get 1 = some (soloEntry kFwd kBwd lastFwd)) :
    r.node.relays (localhost 9200) (soloForward kFwd seq) =
      some (⟨seq, .drop, 0, sealOnion crates [kFwd] (.zeros 16) seq []⟩, soloEntry kFwd kBwd lastFwd,
        if lastFwd < seq then .accept none else .drop) := by
  have decided : relayDecide crates (soloEntry kFwd kBwd lastFwd) (localhost 9200)
      ⟨seq, .drop, 0, sealOnion crates [kFwd] (.zeros 16) seq []⟩ = if lastFwd < seq then .accept none else .drop := by
    by_cases above : lastFwd < seq
    · simp only [soloEntry, relayDecide, if_neg (terminal_passes above), openOnion_sealOnion lawful, if_pos above]
    · simp only [soloEntry, relayDecide, if_pos (Or.inr (UInt32.not_lt.mp above)), if_neg above]
  simp only [Node.relays, soloForward, parseRelay_relayPayload, stored, decided]

theorem SoloReady.forward (ready : SoloReady r.node) (stored : r.node.circuits.get 1 = some (soloEntry kFwd kBwd lastFwd)) :
    SoloReady (r.recv noLookup (localhost 9200) (soloForward kFwd seq)).node where
  identity := by
    rw [← ready.identity]
    simp only [Builds.recv, Node.handleCell, soloForward, Node.handleRelay, parseRelay_relayPayload, stored]
  free := by
    rw [← ready.free]
    simp only [Builds.recv, Node.handleCell, soloForward, Node.handleRelay, parseRelay_relayPayload, stored]

theorem peeled_soloForward (stored : r.node.circuits.get 1 = some (soloEntry kFwd kBwd lastFwd)) :
    r.peeled (soloRecv (soloForward kFwd seq)) = if lastFwd < seq then [(.zeros 16, seq)] else [] := by
  have relay : (soloForward kFwd seq).cmd = .relay := rfl
  rw [soloRecv, Running.peeled, if_pos relay, relays_soloForward stored]
  by_cases above : lastFwd < seq
  · simp only [if_pos above]
    rfl
  · simp only [if_neg above]
    rfl

theorem stored_soloForward (stored : r.node.circuits.get 1 = some (soloEntry kFwd kBwd lastFwd)) :
    (r.recv noLookup (localhost 9200) (soloForward kFwd seq)).node.circuits.get 1 =
      some (soloEntry kFwd kBwd (if lastFwd < seq then seq else lastFwd)) := by
  have circuits := r.node.handleCell_circuits noLookup (localhost 9200) (soloForward kFwd seq)
  have relay : (soloForward kFwd seq).cmd = .relay := rfl
  simp only [relay, relays_soloForward stored] at circuits
  rw [Builds.recv, circuits]
  by_cases above : lastFwd < seq
  · simp only [if_pos above, Decision.commit, Decision.accepted, if_true]
    exact (congrArg (Table.get · 1) (writeLastFwd_same stored seq)).trans (Table.get_insert_self ..)
  · simp only [if_neg above]
    exact stored

theorem step_soloForward (history : History) (seq : UInt32) (stored : r.node.circuits.get 1 = some (soloEntry kFwd kBwd lastFwd)) :
    Such (Logged Running.Step Running.peeled) Running.FirstCreate (r, history) (soloRecv (soloForward kFwd seq))
      (r.recv noLookup (localhost 9200) (soloForward kFwd seq),
        history ++ if lastFwd < seq then [(.zeros 16, seq)] else []) := by
  refine ⟨⟨.recv r noLookup _ _, ?_⟩, fun other => by cases other⟩
  rw [← peeled_soloForward stored]

end

theorem solo_run : ∃ kFwd kBwd r, Run (Such (Logged Running.Step Running.peeled) Running.FirstCreate)
      (.spawn crates (1 : UInt8), []) [soloRecv (soloCreate 1), soloRecv (soloForward kFwd 100)] (r, [(.zeros 16, 100)]) ∧
    SoloReady r.node ∧ r.node.circuits.get 1 = some (soloEntry kFwd kBwd 100) ∧
    ∀ (node : Node crates) (cid : UInt32), node.identity = identity 1 → node.createFrags.get cid = none →
      node.completes (soloCreate cid) = some (.terminal (.zeros 16) kFwd kBwd) := by
  obtain ⟨kFwd, kBwd, completes⟩ := soloCreate_completes
  obtain ⟨ready, stored⟩ := recv_soloCreate completes _ spawn_soloReady noLookup (localhost 9200)
  have created : Such (Logged Running.Step Running.peeled) Running.FirstCreate (.spawn crates (1 : UInt8), [])
      (soloRecv (soloCreate 1)) ((Builds.spawn crates (1 : UInt8)).recv noLookup (localhost 9200) (soloCreate 1), []) :=
    ⟨⟨.recv _ _ _ _, rfl⟩, fun _ _ _ => ⟨by simp, fun _ _ here => by cases here⟩⟩
  exact ⟨kFwd, kBwd, _, (Run.single created).snoc (step_soloForward [] 100 stored), ready.forward stored, stored_soloForward stored,
    completes⟩

/-- The same cell again, and a later one. -/
theorem solo_peeled_increasing : ∃ kFwd r, Run (Such (Logged Running.Step Running.peeled) Running.FirstCreate)
    (.spawn crates (1 : UInt8), []) [soloRecv (soloCreate 1), soloRecv (soloForward kFwd 100), soloRecv (soloForward kFwd 100),
      soloRecv (soloForward kFwd 200)] (r, [(.zeros 16, 100), (.zeros 16, 200)]) ∧
    Increasing [(.zeros 16, 100), (.zeros 16, 200)] := by
  obtain ⟨kFwd, kBwd, r, run, -, stored, -⟩ := solo_run
  have later := (run.snoc (step_soloForward _ 100 stored)).snoc (step_soloForward _ 200 (stored_soloForward stored))
  exact ⟨kFwd, _, later, Running.peeled_increasing _ _ _ _ later⟩

/-- The CREATE that is delivered again opens the way for the cell that is delivered again. -/
theorem replay_after_create : ∃ events r, Run (Logged Running.Step Running.peeled) (.spawn crates (1 : UInt8), []) events
    (r, [(.zeros 16, 100), (.zeros 16, 100)]) ∧ ¬ Increasing [(.zeros 16, 100), (.zeros 16, 100)] := by
  obtain ⟨kFwd, kBwd, r, run, ready, -, completes⟩ := solo_run
  obtain ⟨-, stored⟩ := recv_soloCreate completes r ready noLookup (localhost 9200)
  have created : Logged Running.Step Running.peeled (r, [(.zeros 16, 100)]) (soloRecv (soloCreate 1))
      (r.recv noLookup (localhost 9200) (soloCreate 1), [(.zeros 16, 100)]) := ⟨.recv _ _ _ _, rfl⟩
  exact ⟨_, _, (run.forget.snoc created).snoc (step_soloForward _ 100 stored).1, by simp [Increasing]⟩

end Transparent
end Nbf.Net

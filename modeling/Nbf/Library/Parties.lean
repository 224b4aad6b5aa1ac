import Nbf.Library.Run
import Nbf.Library.Table

/-! Parties that send each other datagrams over a network that promises nothing.

A datagram that was sent may arrive at once, later, more than once, after others
that were sent behind it, or never. What a party does is given as a relation
between its state, what moves it, its state after, and what it sends.
-/

set_option autoImplicit false

namespace Nbf.Library

variable {α ν μ ι : Type}

structure Datagram (α μ : Type) where
  src : α
  dst : α
  payload : μ

/-- What moves a party: something of its own, or what arrives. -/
inductive Cause (α μ ι : Type) where
  | own (label : ι)
  | arrival (src : α) (payload : μ)

abbrev Conduct (α ν μ ι : Type) : Type := ν → Cause α μ ι → ν → List (α × μ) → Prop

structure Parties (α ν μ : Type) where
  nodes : Table α ν
  /-- All that was ever sent. -/
  sent : List (Datagram α μ)

inductive PartyEvent (α μ ι : Type) where
  | act (addr : α) (label : ι)
  | arrive (d : Datagram α μ)

namespace Parties

variable [DecidableEq α]

def update (s : Parties α ν μ) (addr : α) (node : ν) (out : List (α × μ)) : Parties α ν μ :=
  ⟨s.nodes.insert addr node, s.sent ++ out.map fun sent => ⟨addr, sent.1, sent.2⟩⟩

inductive Step (conduct : Conduct α ν μ ι) : Parties α ν μ → PartyEvent α μ ι → Parties α ν μ → Prop where
  | act {s : Parties α ν μ} {addr : α} {label : ι} {node node' : ν} {out : List (α × μ)} :
      s.nodes.get addr = some node → conduct node (.own label) node' out → Step conduct s (.act addr label) (s.update addr node' out)
  | arrive {s : Parties α ν μ} {d : Datagram α μ} {node node' : ν} {out : List (α × μ)} :
      d ∈ s.sent → s.nodes.get d.dst = some node → conduct node (.arrival d.src d.payload) node' out →
      Step conduct s (.arrive d) (s.update d.dst node' out)

structure All (P : α → ν → Prop) (Q : μ → Prop) (s : Parties α ν μ) : Prop where
  nodes : ∀ addr node, s.nodes.get addr = some node → P addr node
  sent : ∀ d ∈ s.sent, Q d.payload

/-- A party stays fine and sends only what is fine, as long as all that arrives is. -/
structure Keeps (conduct : Conduct α ν μ ι) (P : α → ν → Prop) (Q : μ → Prop) : Prop where
  own : ∀ addr node label node' out, P addr node → conduct node (.own label) node' out → P addr node' ∧ ∀ sent ∈ out, Q sent.2
  arrival : ∀ addr node src payload node' out, P addr node → Q payload → conduct node (.arrival src payload) node' out →
    P addr node' ∧ ∀ sent ∈ out, Q sent.2

variable {conduct : Conduct α ν μ ι} {P : α → ν → Prop} {Q : μ → Prop} {s t : Parties α ν μ} {event : PartyEvent α μ ι}

theorem All.update (all : s.All P Q) {addr : α} {node : ν} {out : List (α × μ)} (fine : P addr node)
    (sends : ∀ sent ∈ out, Q sent.2) : (s.update addr node out).All P Q where
  nodes a other here := by
    rcases Table.get_insert_some here with ⟨rfl, rfl⟩ | ⟨-, old⟩
    · exact fine
    · exact all.nodes a other old
  sent d member := by
    rcases List.mem_append.mp member with old | new
    · exact all.sent d old
    · obtain ⟨sent, among, rfl⟩ := List.mem_map.mp new
      exact sends sent among

theorem Keeps.step (keeps : Keeps conduct P Q) (all : s.All P Q) (step : Step conduct s event t) : t.All P Q := by
  cases step with
  | act present moves =>
    obtain ⟨fine, sends⟩ := keeps.own _ _ _ _ _ (all.nodes _ _ present) moves
    exact all.update fine sends
  | arrive sent present moves =>
    obtain ⟨fine, sends⟩ := keeps.arrival _ _ _ _ _ _ (all.nodes _ _ present) (all.sent _ sent) moves
    exact all.update fine sends

theorem Keeps.run (keeps : Keeps conduct P Q) (all : s.All P Q) {events : List (PartyEvent α μ ι)}
    (run : Run (Step conduct) s events t) : t.All P Q :=
  run.invariant (All P Q) (fun _ _ _ all step => keeps.step all step) all

theorem Step.isSome (step : Step conduct s event t) (addr : α) : (t.nodes.get addr).isSome = (s.nodes.get addr).isSome := by
  have updated {here : α} {node : ν} (present : s.nodes.get here = some node) (node' : ν) :
      ((s.nodes.insert here node').get addr).isSome = (s.nodes.get addr).isSome := by
    rw [Table.get_insert]
    split
    next same => rw [same, present]; rfl
    next => rfl
  cases step with
  | act present _ => exact updated present _
  | arrive _ present _ => exact updated present _

theorem isSome_run {events : List (PartyEvent α μ ι)} (run : Run (Step conduct) s events t) (addr : α) :
    (t.nodes.get addr).isSome = (s.nodes.get addr).isSome :=
  run.invariant (fun u => (u.nodes.get addr).isSome = (s.nodes.get addr).isSome)
    (fun _ _ _ same step => (step.isSome addr).trans same) rfl

/-! ## One party -/

def causeAt (addr : α) : PartyEvent α μ ι → Option (Cause α μ ι)
  | .act a label => if a = addr then some (.own label) else none
  | .arrive d => if d.dst = addr then some (.arrival d.src d.payload) else none

/-- A move of one party that is fine, on nothing but what is fine. -/
def Local (conduct : Conduct α ν μ ι) (P : ν → Prop) (Q : μ → Prop) (node : ν) (cause : Cause α μ ι) (node' : ν) : Prop :=
  P node ∧ (∀ src payload, cause = .arrival src payload → Q payload) ∧ ∃ out, conduct node cause node' out

/-- In a run of all, each party runs on what moves it. -/
theorem local_run (keeps : Keeps conduct P Q) (all : s.All P Q) {events : List (PartyEvent α μ ι)}
    (run : Run (Step conduct) s events t) {addr : α} {node : ν} (present : s.nodes.get addr = some node) :
    ∃ node', t.nodes.get addr = some node' ∧ Run (Local conduct (P addr) Q) node (events.filterMap (causeAt addr)) node' := by
  induction run with
  | nil => exact ⟨node, present, .nil node⟩
  | @snoc u v events event before last ih =>
    obtain ⟨mid, here, sofar⟩ := ih
    have fine := keeps.run all before
    rw [List.filterMap_append]
    cases last with
    | @act there label other next out at_there moves =>
      by_cases same : there = addr
      · subst same
        obtain rfl := Option.some.inj (here.symm.trans at_there)
        refine ⟨next, Table.get_insert_self .., ?_⟩
        simp only [List.filterMap_cons, causeAt, if_true, List.filterMap_nil]
        exact sofar.snoc ⟨fine.nodes _ _ here, nofun, out, moves⟩
      · refine ⟨mid, (Table.get_insert_of_ne _ _ (Ne.symm same)).trans here, ?_⟩
        simpa [causeAt, same] using sofar
    | @arrive d other next out sent at_there moves =>
      by_cases same : d.dst = addr
      · subst same
        obtain rfl := Option.some.inj (here.symm.trans at_there)
        refine ⟨next, Table.get_insert_self .., ?_⟩
        simp only [List.filterMap_cons, causeAt, if_true, List.filterMap_nil]
        refine sofar.snoc ⟨fine.nodes _ _ here, fun src payload same => ?_, out, moves⟩
        cases same
        exact fine.sent d sent
      · refine ⟨mid, (Table.get_insert_of_ne _ _ (Ne.symm same)).trans here, ?_⟩
        simpa [causeAt, same] using sofar

end Parties

end Nbf.Library

import Nbf.Net.Network

/-! A circuit as it lies in the nodes along it.

Each hop stores its entry under the cid the hop before it uses on the link
between them; the entries' links chain from the origin to the terminal.
-/

set_option autoImplicit false

namespace Nbf.Net

open Nbf.Library Nbf.Crypto

/-- One hop: where its node listens, the cid its entry is stored under, and what the entry holds. -/
structure Hop where
  addr : SocketAddr
  cid : UInt32
  kFwd : Octets 32
  kBwd : Octets 32
  lastFwd : UInt32

def Hop.slot (hop : Hop) : SocketAddr × UInt32 := (hop.addr, hop.cid)

def Hop.entry (tag : Octets 16) (prev : SocketAddr) (hop : Hop) : Option Hop → CircuitEntry
  | none => .terminal tag hop.kFwd hop.kBwd ⟨hop.cid, prev⟩ hop.lastFwd
  | some next => .relay tag hop.kFwd hop.kBwd ⟨hop.cid, prev⟩ ⟨next.cid, next.addr⟩ hop.lastFwd

variable {C : Crates}

def Network.entryAt (net : Network C) (addr : SocketAddr) (cid : UInt32) : Option CircuitEntry :=
  (net.nodes.get addr).bind fun node => node.circuits.get cid

theorem Network.entryAt_of_get {net : Network C} {addr : SocketAddr} {node : Node C}
    (present : net.nodes.get addr = some node) (cid : UInt32) : net.entryAt addr cid = node.circuits.get cid := by
  rw [entryAt, present, Option.bind_some]

/-- The hops' entries are in place, the first one behind `prev`. -/
def Installed (net : Network C) (tag : Octets 16) : SocketAddr → List Hop → Prop
  | _, [] => True
  | prev, hop :: rest =>
    net.entryAt hop.addr hop.cid = some (hop.entry tag prev rest.head?) ∧ Installed net tag hop.addr rest

/-- No node of the circuit stores any other entry. -/
def Sole (net : Network C) (hops : List Hop) : Prop :=
  ∀ hop ∈ hops, ∀ cid, cid ≠ hop.cid → net.entryAt hop.addr cid = none

theorem Installed.congr {net net' : Network C} {tag : Octets 16} {prev : SocketAddr} {hops : List Hop}
    (installed : Installed net tag prev hops)
    (same : ∀ hop ∈ hops, net'.entryAt hop.addr hop.cid = net.entryAt hop.addr hop.cid) :
    Installed net' tag prev hops := by
  induction hops generalizing prev with
  | nil => trivial
  | cons hop rest ih =>
    refine ⟨?_, ih installed.2 fun later member => same later (List.mem_cons_of_mem _ member)⟩
    rw [same hop List.mem_cons_self]
    exact installed.1

theorem Installed.at_mem {net : Network C} {tag : Octets 16} {prev : SocketAddr} {hops : List Hop}
    (installed : Installed net tag prev hops) {hop : Hop} (member : hop ∈ hops) :
    ∃ before prev' rest, hops = before ++ hop :: rest ∧ Installed net tag prev' (hop :: rest) := by
  induction hops generalizing prev with
  | nil => simp at member
  | cons first rest ih =>
    rcases List.mem_cons.mp member with rfl | later
    · exact ⟨[], prev, rest, rfl, installed⟩
    · obtain ⟨before, prev', rest', same, installed'⟩ := ih installed.2 later
      exact ⟨first :: before, prev', rest', by rw [same, List.cons_append], installed'⟩

theorem Installed.same_depth {net : Network C} {tag : Octets 16} {prev prev' : SocketAddr} {hop hop' : Hop}
    {rest rest' : List Hop} (installed : Installed net tag prev (hop :: rest))
    (installed' : Installed net tag prev' (hop' :: rest')) (same : hop.slot = hop'.slot) :
    rest.length = rest'.length := by
  -- Equal slots hold equal entries, and these name the slot behind: both chains end together.
  induction rest generalizing prev prev' hop hop' rest' with
  | nil =>
    cases rest' with
    | nil => rfl
    | cons next' rest' =>
      obtain ⟨addr, cid⟩ := Prod.mk.inj same
      have entry := installed.1
      rw [addr, cid, installed'.1] at entry
      simp [Hop.entry] at entry
  | cons next rest ih =>
    obtain ⟨addr, cid⟩ := Prod.mk.inj same
    have entry := installed.1
    rw [addr, cid, installed'.1] at entry
    cases rest' with
    | nil => simp [Hop.entry] at entry
    | cons next' rest' =>
      simp only [List.head?_cons, Hop.entry, Option.some.injEq, CircuitEntry.relay.injEq, HopLink.mk.injEq] at entry
      have link : next.slot = next'.slot := Prod.ext entry.2.2.2.2.1.2.symm entry.2.2.2.2.1.1.symm
      rw [List.length_cons, List.length_cons, ih installed.2 installed'.2 link]

theorem Installed.origin_apart {net : Network C} {tag : Octets 16} {prev addr : SocketAddr} {hops : List Hop} {cid : UInt32}
    {fwd bwd : List (Octets 32)} {tag' : Octets 16} {next : HopLink} {streams : Table UInt16 StreamTx}
    (installed : Installed net tag prev hops) (here : net.entryAt addr cid = some (.origin fwd bwd tag' next streams)) :
    (addr, cid) ∉ hops.map Hop.slot := by
  intro again
  obtain ⟨hop, member, same⟩ := List.mem_map.mp again
  obtain ⟨rfl, rfl⟩ := Prod.mk.inj same
  obtain ⟨_, _, rest, -, installed'⟩ := installed.at_mem member
  rw [installed'.1] at here
  cases rest <;> simp [Hop.entry] at here

theorem Installed.slot_apart {net : Network C} {tag : Octets 16} {prev : SocketAddr} {hop : Hop} {rest : List Hop}
    (installed : Installed net tag prev (hop :: rest)) : hop.slot ∉ rest.map Hop.slot := by
  intro again
  obtain ⟨other, member, same⟩ := List.mem_map.mp again
  obtain ⟨before, prev', later, split, installed'⟩ := installed.2.at_mem member
  have depth := installed.same_depth installed' same.symm
  rw [split, List.length_append, List.length_cons] at depth
  omega

end Nbf.Net

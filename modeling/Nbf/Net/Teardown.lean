import Nbf.Net.Control
import Nbf.Net.Echo

/-! Taking a circuit down.

A DESTROY is sent on towards the origin only, under the cid its entry came in by.
-/

set_option autoImplicit false

namespace Nbf.Net

open Nbf.Library Nbf.Crypto

variable {C : Crates}

/-- A circuit with its entries in place, with any cids and peers, and nothing in flight. -/
structure Standing (net : Network C) (originAddr : SocketAddr) (origin : Node C) (handle : CircuitHandle)
    (first : Hop) (rest : List Hop) : Prop where
  present : net.nodes.get originAddr = some origin
  quiet : net.wire = []
  short : (first :: rest).length ≤ maxHops
  entry : ∃ fwd bwd tag streams, origin.circuits.get handle.cid = some (.origin fwd bwd tag ⟨handle.cid, first.addr⟩ streams)
  link : first.cid = handle.cid
  installed : Installed net handle.tag originAddr (first :: rest)

/-- Where a teardown starts: at the origin, or at a hop with a DESTROY from the node before or after it. -/
inductive Teardown (hops : List Hop) where
  | close
  | prev (before : List Hop) (hop : Hop) (after : List Hop) (split : hops = before ++ hop :: after)
  | next (before : List Hop) (hop after : Hop) (later : List Hop) (split : hops = before ++ hop :: after :: later)

namespace Teardown

variable {hops : List Hop}

/-- The first cell is on its way. A closing origin has taken its entry out; were the entry still there when DESTROY
comes back, it would be taken out then, and nothing sent either. -/
def begin (net : Network C) (originAddr : SocketAddr) (origin : Node C) (handle : CircuitHandle) : Teardown hops → Network C
  | .close => net.update originAddr (origin.close handle).1 (origin.close handle).2 net.wire
  | .prev before hop _ _ =>
    { net with wire := net.wire ++ [destroyPacket ((before.getLast?.map Hop.addr).getD originAddr) hop.addr hop.cid] }
  | .next _ hop after _ _ => { net with wire := net.wire ++ [destroyPacket after.addr hop.addr after.cid] }

/-- It starts at one end with all of the circuit before it, and every DESTROY meets the next entry. -/
def Whole : Teardown hops → Prop
  | .close => hops.length = 1
  | .prev _ hop after _ => after = [] ∧ ∀ other ∈ hops, other.cid = hop.cid
  | .next .. => False

end Teardown

def Cleared (net net' : Network C) (slots : List (SocketAddr × UInt32)) : Prop :=
  ∀ addr cid, net'.entryAt addr cid = if (addr, cid) ∈ slots then none else net.entryAt addr cid

/-- From `start` on the cells run out, and then the circuit's entries of `net` are gone, and no other. -/
def TearsDown (net start : Network C) (slots : List (SocketAddr × UInt32)) : Prop :=
  (∃ labels net', Run Network.Step start labels net' ∧ net'.wire = []) ∧
    ∀ labels net', Run Network.Step start labels net' → net'.wire = [] → Cleared net net' slots

namespace Cleared

variable {net mid net' : Network C} {slots slots' : List (SocketAddr × UInt32)}

theorem trans (first : Cleared net mid slots) (second : Cleared mid net' slots') : Cleared net net' (slots ++ slots') := by
  intro addr cid
  rw [second addr cid, first addr cid]
  simp only [List.mem_append]
  by_cases early : (addr, cid) ∈ slots
  · simp [early]
  · simp [early]

theorem of_mem_iff (cleared : Cleared net net' slots) (same : ∀ slot, slot ∈ slots ↔ slot ∈ slots') : Cleared net net' slots' := by
  intro addr cid
  rw [cleared addr cid]
  simp only [same]

theorem mem (cleared : Cleared net net' slots) (cleared' : Cleared net net' slots') {slot : SocketAddr × UInt32}
    (member : slot ∈ slots') (had : net.entryAt slot.1 slot.2 ≠ none) : slot ∈ slots := by
  by_contra still
  have gone := cleared' slot.1 slot.2
  rw [cleared, if_neg still, if_pos member] at gone
  exact had gone

end Cleared

namespace Network

def Linked (net : Network C) : SocketAddr → List Hop → Prop
  | _, [] => True
  | prev, hop :: rest => (net.entryAt hop.addr hop.cid).bind CircuitEntry.prev? = some ⟨hop.cid, prev⟩ ∧ Linked net hop.addr rest

theorem linked_of_installed {net : Network C} {tag : Octets 16} {prev : SocketAddr} {hops : List Hop}
    (installed : Installed net tag prev hops) : net.Linked prev hops := by
  induction hops generalizing prev with
  | nil => trivial
  | cons hop rest ih =>
    refine ⟨?_, ih installed.2⟩
    rw [installed.1]
    cases rest <;> rfl

theorem linked_append {net : Network C} {prev : SocketAddr} {before after : List Hop} :
    net.Linked prev (before ++ after) ↔
      net.Linked prev before ∧ net.Linked ((before.getLast?.map Hop.addr).getD prev) after := by
  induction before generalizing prev with
  | nil => simp [Linked]
  | cons hop rest ih =>
    have last : ((hop :: rest).getLast?.map Hop.addr).getD prev = (rest.getLast?.map Hop.addr).getD hop.addr := by
      cases rest with
      | nil => rfl
      | cons next rest =>
        rw [List.getLast?_cons_cons, List.getLast?_eq_some_getLast (List.cons_ne_nil next rest)]
        rfl
    simp only [List.cons_append, Linked, ih, and_assoc, last]

theorem Linked.congr {net net' : Network C} {prev : SocketAddr} {hops : List Hop} (linked : net.Linked prev hops)
    (same : ∀ hop ∈ hops, net'.entryAt hop.addr hop.cid = net.entryAt hop.addr hop.cid) : net'.Linked prev hops := by
  induction hops generalizing prev with
  | nil => trivial
  | cons hop rest ih =>
    refine ⟨?_, ih linked.2 fun later member => same later (List.mem_cons_of_mem _ member)⟩
    rw [same hop List.mem_cons_self]
    exact linked.1

def afterDestroy (net : Network C) (p : Packet) : Network C := net.receive (fun _ => .error .timeout) p []

theorem forced_destroy {net last : Network C} {p : Packet} (cmd : p.cell.cmd = .destroy) (wire : net.wire = [p])
    (path : Forced Step (net.afterDestroy p) last) : Forced Step net last := by
  refine forced_receive wire (by simp) (fun lookup => ?_) path
  simp only [afterDestroy, receive, Node.handleCell, cmd]

theorem afterDestroy_cleared (net : Network C) {p : Packet} (cmd : p.cell.cmd = .destroy) :
    Cleared net (net.afterDestroy p) [(p.dst, p.cell.cid)] := by
  intro addr cid
  rw [afterDestroy, (net.receive_destroy _ cmd []).2 addr cid]
  simp only [List.mem_singleton]

theorem destroy_told {net : Network C} {addr : SocketAddr} {cid : UInt32} (src : SocketAddr) {told : Option HopLink}
    (link : (net.entryAt addr cid).bind CircuitEntry.prev? = told) :
    (net.afterDestroy (destroyPacket src addr cid)).wire = told.toList.map (fun prev => destroyPacket addr prev.peer prev.cid) ∧
      Cleared net (net.afterDestroy (destroyPacket src addr cid)) [(addr, cid)] := by
  have cmd : (destroyPacket src addr cid).cell.cmd = .destroy := rfl
  refine ⟨?_, net.afterDestroy_cleared cmd⟩
  rw [afterDestroy, (net.receive_destroy _ cmd []).1, List.nil_append, destroyed, ← link]
  rfl

theorem destroy_hop {net : Network C} {prev : SocketAddr} {hop : Hop} {rest : List Hop} (src : SocketAddr)
    (linked : net.Linked prev (hop :: rest)) :
    (net.afterDestroy (destroyPacket src hop.addr hop.cid)).wire = [destroyPacket hop.addr prev hop.cid] ∧
      Cleared net (net.afterDestroy (destroyPacket src hop.addr hop.cid)) [hop.slot] := destroy_told src linked.1

theorem destroy_end {net : Network C} {addr : SocketAddr} {cid : UInt32} (src : SocketAddr)
    (none : (net.entryAt addr cid).bind CircuitEntry.prev? = none) :
    (net.afterDestroy (destroyPacket src addr cid)).wire = [] ∧
      Cleared net (net.afterDestroy (destroyPacket src addr cid)) [(addr, cid)] := destroy_told src none

/-- Where all entries lie under one cid, a DESTROY takes them all out, from the hop it is for to the origin. -/
theorem cascade (net : Network C) {src originAddr : SocketAddr} {cid : UInt32} (before : List Hop) (hop : Hop)
    (linked : net.Linked originAddr (before ++ [hop])) (top : (net.entryAt originAddr cid).bind CircuitEntry.prev? = none)
    (uniform : ∀ other ∈ before ++ [hop], other.cid = cid)
    (apart : ((originAddr, cid) :: (before ++ [hop]).map Hop.slot).Nodup)
    (wire : net.wire = [destroyPacket src hop.addr cid]) :
    ∃ net', Forced Step net net' ∧ net'.wire = [] ∧ Cleared net net' ((originAddr, cid) :: (before ++ [hop]).map Hop.slot) := by
  -- On the hops before it, from the last of them to the first.
  induction before using List.reverseRecOn generalizing net hop src with
  | nil =>
    obtain rfl := uniform hop (by simp)
    obtain ⟨sent, taken⟩ := destroy_hop src linked
    have home : (originAddr, hop.cid) ∉ [hop.slot] := by simpa using apart
    have top' : ((net.afterDestroy (destroyPacket src hop.addr hop.cid)).entryAt originAddr hop.cid).bind CircuitEntry.prev? =
        none := by rw [taken, if_neg home, top]
    obtain ⟨empty, last⟩ := destroy_end hop.addr top'
    refine ⟨_, forced_destroy rfl wire (forced_destroy rfl sent (.refl _)), empty, (taken.trans last).of_mem_iff ?_⟩
    intro slot
    simp [or_comm]
  | append_singleton before last ih =>
    obtain rfl := uniform hop (by simp)
    obtain ⟨linkedBefore, link⟩ := linked_append.mp linked
    rw [List.getLast?_concat, Option.map_some, Option.getD_some] at link
    obtain ⟨sent, taken⟩ := destroy_hop src link
    rw [List.map_append, ← List.cons_append, List.nodup_append] at apart
    obtain ⟨apartBefore, -, disjoint⟩ := apart
    have other (addr : SocketAddr) (cid : UInt32) (member : (addr, cid) ∈ (originAddr, hop.cid) :: (before ++ [last]).map Hop.slot) :
        (net.afterDestroy (destroyPacket src hop.addr hop.cid)).entryAt addr cid = net.entryAt addr cid := by
      rw [taken, if_neg]
      intro same
      exact disjoint _ member _ (by simp) (List.mem_singleton.mp same)
    obtain ⟨net', path, empty, cleared⟩ := ih _ last
      (linkedBefore.congr fun h member => other h.addr h.cid (List.mem_cons_of_mem _ (List.mem_map_of_mem member)))
      (by rw [other _ _ List.mem_cons_self, top]) (fun h member => uniform h (List.mem_append_left _ member)) apartBefore sent
    refine ⟨net', forced_destroy rfl wire path, empty, (taken.trans cleared).of_mem_iff fun slot => ?_⟩
    simp only [List.map_append, List.map_cons, List.map_nil, List.mem_append, List.mem_cons, List.not_mem_nil]
    tauto

/-! ## A cascade that does not meet every entry -/

/-- Since `start`, the cells in flight are DESTROYs and entries have only gone. Either one of another circuit has, or all cells
carry `cid`, and the entry in `kept` is there. -/
structure Astray (start : Network C) (slots : List (SocketAddr × UInt32)) (kept : SocketAddr × UInt32) (cid : UInt32)
    (net : Network C) : Prop where
  destroys : ∀ p ∈ net.wire, p.cell.cmd = .destroy
  shrinks : ∀ addr c, net.entryAt addr c = start.entryAt addr c ∨ net.entryAt addr c = none
  astray : (∃ addr c, (addr, c) ∉ slots ∧ start.entryAt addr c ≠ none ∧ net.entryAt addr c = none) ∨
    (∀ p ∈ net.wire, p.cell.cid = cid) ∧ net.entryAt kept.1 kept.2 = start.entryAt kept.1 kept.2

theorem Astray.step {start net net' : Network C} {slots : List (SocketAddr × UInt32)} {kept : SocketAddr × UInt32}
    {cid : UInt32} {p : Packet} (astray : Astray start slots kept cid net) (other : kept.2 ≠ cid)
    (own : ∀ addr c prev, (addr, c) ∈ slots → (start.entryAt addr c).bind CircuitEntry.prev? = some prev → prev.cid = c)
    (step : Step net p net') : Astray start slots kept cid net' := by
  obtain ⟨flying, destroys, taken, rest, old, -, sent⟩ := step_destroys astray.destroys step
  have shrinks (addr : SocketAddr) (c : UInt32) : net'.entryAt addr c = net.entryAt addr c ∨ net'.entryAt addr c = none := by
    rw [taken]
    split
    · exact .inr rfl
    · exact .inl rfl
  refine ⟨destroys, fun addr c => ?_, ?_⟩
  · rcases shrinks addr c with same | gone
    · rw [same]
      exact astray.shrinks addr c
    · exact .inr gone
  · rcases astray.astray with ⟨addr, c, foreign, had, gone⟩ | ⟨cids, still⟩
    · refine .inl ⟨addr, c, foreign, had, ?_⟩
      rcases shrinks addr c with same | gone'
      · rw [same, gone]
      · exact gone'
    -- The entry it takes out is one of the circuit's or not.
    · have here : p.cell.cid = cid := cids p flying
      have kept' : kept ≠ (p.dst, p.cell.cid) := fun same => other (by rw [same, here])
      by_cases foreign : (p.dst, p.cell.cid) ∉ slots ∧ net.entryAt p.dst p.cell.cid ≠ none
      · refine .inl ⟨p.dst, p.cell.cid, foreign.1, fun none => ?_, by rw [taken, if_pos rfl]⟩
        rcases astray.shrinks p.dst p.cell.cid with same | gone
        · exact foreign.2 (same.trans none)
        · exact foreign.2 gone
      · refine .inr ⟨fun q member => ?_, by rw [taken, if_neg kept', still]⟩
        rw [sent] at member
        rcases List.mem_append.mp member with early | now
        · exact cids q (old early)
        · obtain ⟨prev, link, rfl⟩ := mem_destroyed now
          have some : net.entryAt p.dst p.cell.cid ≠ none := fun none => by rw [none] at link; cases link
          have mine : (p.dst, p.cell.cid) ∈ slots := by_contra fun not => foreign ⟨not, some⟩
          have same := (astray.shrinks p.dst p.cell.cid).resolve_right some
          exact (own _ _ prev mine (same ▸ link)).trans here

theorem Astray.not_cleared {start net : Network C} {slots : List (SocketAddr × UInt32)} {kept : SocketAddr × UInt32}
    {cid : UInt32} (astray : Astray start slots kept cid net) (member : kept ∈ slots) (had : start.entryAt kept.1 kept.2 ≠ none) :
    ¬ Cleared start net slots := by
  intro cleared
  rcases astray.astray with ⟨addr, c, foreign, some, gone⟩ | ⟨-, still⟩
  · rw [cleared, if_neg foreign] at gone
    exact some gone
  · rw [cleared, if_pos member] at still
    exact had still.symm

theorem tearsDown_iff_of_forced {net start last : Network C} {slots : List (SocketAddr × UInt32)} (path : Forced Step start last)
    (empty : last.wire = []) : TearsDown net start slots ↔ Cleared net last slots := by
  constructor
  · intro tearsDown
    obtain ⟨labels, run⟩ := path.toRun
    exact tearsDown.2 labels last run empty
  · intro cleared
    refine ⟨?_, fun labels net' run stuck => ?_⟩
    · obtain ⟨labels, run⟩ := path.toRun
      exact ⟨labels, last, run, empty⟩
    · rw [path.run_ends (fun _ _ => quiet empty) run fun _ _ => quiet stuck]
      exact cleared

end Network

/-! ## A standing circuit -/

theorem Installed.nodup {net : Network C} {tag : Octets 16} {prev : SocketAddr} {hops : List Hop}
    (installed : Installed net tag prev hops) : (hops.map Hop.slot).Nodup := by
  induction hops generalizing prev with
  | nil => exact .nil
  | cons hop rest ih => exact List.nodup_cons.mpr ⟨installed.slot_apart, ih installed.2⟩

def circuitSlots (originAddr : SocketAddr) (handle : CircuitHandle) (hops : List Hop) : List (SocketAddr × UInt32) :=
  (originAddr, handle.cid) :: hops.map Hop.slot

namespace Standing

variable {net : Network C} {originAddr : SocketAddr} {origin : Node C} {handle : CircuitHandle} {first : Hop} {rest : List Hop}

theorem home (standing : Standing net originAddr origin handle first rest) :
    ∃ entry, net.entryAt originAddr handle.cid = some entry ∧ entry.prev? = none := by
  obtain ⟨fwd, bwd, tag, streams, entry⟩ := standing.entry
  exact ⟨_, (Network.entryAt_of_get standing.present _).trans entry, rfl⟩

theorem top (standing : Standing net originAddr origin handle first rest) :
    (net.entryAt originAddr handle.cid).bind CircuitEntry.prev? = none := by
  obtain ⟨entry, here, none⟩ := standing.home
  rw [here, Option.bind_some, none]

theorem apart (standing : Standing net originAddr origin handle first rest) :
    (circuitSlots originAddr handle (first :: rest)).Nodup := by
  obtain ⟨fwd, bwd, tag, streams, entry⟩ := standing.entry
  refine List.nodup_cons.mpr ⟨?_, standing.installed.nodup⟩
  exact standing.installed.origin_apart ((Network.entryAt_of_get standing.present _).trans entry)

theorem hop (standing : Standing net originAddr origin handle first rest) {hop : Hop} (member : hop ∈ first :: rest) :
    ∃ entry prev, net.entryAt hop.addr hop.cid = some entry ∧ entry.prev? = some ⟨hop.cid, prev⟩ := by
  obtain ⟨before, prev, after, -, installed⟩ := standing.installed.at_mem member
  refine ⟨_, prev, installed.1, ?_⟩
  cases after <;> rfl

theorem had (standing : Standing net originAddr origin handle first rest) {slot : SocketAddr × UInt32}
    (member : slot ∈ circuitSlots originAddr handle (first :: rest)) : net.entryAt slot.1 slot.2 ≠ none := by
  rcases List.mem_cons.mp member with rfl | member
  · obtain ⟨entry, here, -⟩ := standing.home
    exact fun none => by cases here.symm.trans none
  · obtain ⟨hop, hopMember, rfl⟩ := List.mem_map.mp member
    obtain ⟨entry, _, here, -⟩ := standing.hop hopMember
    exact fun none => by cases here.symm.trans none

theorem own (standing : Standing net originAddr origin handle first rest) (addr : SocketAddr) (cid : UInt32) (prev : HopLink)
    (member : (addr, cid) ∈ circuitSlots originAddr handle (first :: rest))
    (link : (net.entryAt addr cid).bind CircuitEntry.prev? = some prev) : prev.cid = cid := by
  rcases List.mem_cons.mp member with same | member
  · obtain ⟨rfl, rfl⟩ := Prod.mk.inj same
    rw [standing.top] at link
    cases link
  · obtain ⟨hop, hopMember, same⟩ := List.mem_map.mp member
    obtain ⟨rfl, rfl⟩ := Prod.mk.inj same
    obtain ⟨entry, _, here, came⟩ := standing.hop hopMember
    rw [here, Option.bind_some, came] at link
    cases link
    rfl

def started (net : Network C) (src dst : SocketAddr) (cid : UInt32) : Network C :=
  { net with wire := net.wire ++ [destroyPacket src dst cid] }

theorem tearsDown_uniform (standing : Standing net originAddr origin handle first rest) {before after : List Hop} {hop : Hop}
    (split : first :: rest = before ++ hop :: after) (src : SocketAddr) {cid : UInt32}
    (uniform : ∀ other ∈ first :: rest, other.cid = cid) :
    TearsDown net (started net src hop.addr cid) (circuitSlots originAddr handle (first :: rest)) ↔ after = [] := by
  obtain rfl : handle.cid = cid := standing.link ▸ uniform first List.mem_cons_self
  have parts : first :: rest = (before ++ [hop]) ++ after := by rw [split, List.append_assoc, List.singleton_append]
  have linked : (started net src hop.addr handle.cid).Linked originAddr (before ++ [hop]) := by
    have all : (started net src hop.addr handle.cid).Linked originAddr (first :: rest) :=
      (Network.linked_of_installed standing.installed).congr fun _ _ => rfl
    rw [parts] at all
    exact (Network.linked_append.mp all).1
  have apart := standing.apart
  rw [circuitSlots, parts, List.map_append, ← List.cons_append, List.nodup_append] at apart
  obtain ⟨net', path, empty, cleared⟩ := (started net src hop.addr handle.cid).cascade before hop linked standing.top
    (fun other member => uniform other (by rw [parts]; exact List.mem_append_left _ member)) apart.1
    (by rw [started, standing.quiet]; rfl)
  have done : Cleared net net' ((originAddr, handle.cid) :: (before ++ [hop]).map Hop.slot) := cleared
  rw [Network.tearsDown_iff_of_forced path empty]
  constructor
  · intro all
    cases after with
    | nil => rfl
    | cons next later =>
      have member : next.slot ∈ circuitSlots originAddr handle (first :: rest) := by simp [circuitSlots, parts]
      exact absurd rfl (apart.2.2 _ (done.mem all member (standing.had member)) _ (by simp))
  · rintro rfl
    rw [circuitSlots, parts, List.append_nil]
    exact done

/-- A DESTROY under a cid that one of the hops does not have never takes out all. -/
theorem not_tearsDown (standing : Standing net originAddr origin handle first rest) (src dst : SocketAddr) {cid : UInt32}
    {other : Hop} (member : other ∈ first :: rest) (differs : other.cid ≠ cid) :
    ¬ TearsDown net (started net src dst cid) (circuitSlots originAddr handle (first :: rest)) := by
  rintro ⟨⟨labels, net', run, empty⟩, all⟩
  have kept : other.slot ∈ circuitSlots originAddr handle (first :: rest) :=
    List.mem_cons_of_mem _ (List.mem_map_of_mem member)
  have astray : Network.Astray net (circuitSlots originAddr handle (first :: rest)) other.slot cid (started net src dst cid) := by
    refine ⟨fun p flying => ?_, fun _ _ => .inl rfl, .inr ⟨fun p flying => ?_, rfl⟩⟩
    · rw [started, standing.quiet, List.nil_append, List.mem_singleton] at flying
      rw [flying]
      rfl
    · rw [started, standing.quiet, List.nil_append, List.mem_singleton] at flying
      rw [flying]
      rfl
  have after := run.invariant _ (fun _ _ _ before step => before.step differs standing.own step) astray
  exact after.not_cleared kept (standing.had kept) (all labels net' run empty)

/-- Closing takes out the origin's entry and that of the first hop, which answers to the origin. -/
theorem forced_close (standing : Standing net originAddr origin handle first rest) : ∃ net',
    Forced Network.Step (net.update originAddr (origin.close handle).1 (origin.close handle).2 net.wire) net' ∧ net'.wire = [] ∧
      Cleared net net' [(originAddr, handle.cid), first.slot] := by
  obtain ⟨fwd, bwd, tag, streams, entry⟩ := standing.entry
  have closes : origin.close handle =
      ({ origin with circuits := origin.circuits.remove handle.cid }, [.sendCell first.addr ⟨handle.cid, .destroy, 0, []⟩]) := by
    simp only [Node.close, entry]
  let closed := net.update originAddr (origin.close handle).1 (origin.close handle).2 net.wire
  have wire : closed.wire = [destroyPacket originAddr first.addr first.cid] := by
    simp only [closed, closes, Network.update, standing.quiet, List.nil_append, packetsOf_destroy, standing.link]
  have gone : Cleared net closed [(originAddr, handle.cid)] := by
    intro addr cid
    rw [net.entryAt_update, closes, Table.get_remove]
    by_cases here : addr = originAddr
    · rw [here, Network.entryAt_of_get standing.present]
      simp
    · simp [here]
  have apart : first.slot ≠ (originAddr, handle.cid) := fun same =>
    (List.nodup_cons.mp standing.apart).1 (by rw [← same]; simp)
  have linked : closed.Linked originAddr [first] := by
    have still : closed.entryAt first.addr first.cid = net.entryAt first.addr first.cid := by
      rw [gone, if_neg]
      exact fun same => apart (List.mem_singleton.mp same)
    exact ⟨still ▸ (Network.linked_of_installed standing.installed).1, trivial⟩
  obtain ⟨sent, taken⟩ := Network.destroy_hop originAddr linked
  -- The answer finds the origin's entry gone.
  have top : ((closed.afterDestroy (destroyPacket originAddr first.addr first.cid)).entryAt originAddr first.cid).bind
      CircuitEntry.prev? = none := by
    rw [standing.link] at taken ⊢
    rw [taken, if_neg (fun same => apart (List.mem_singleton.mp same).symm), gone, if_pos (List.mem_singleton_self _),
      Option.bind_none]
  obtain ⟨empty, last⟩ := Network.destroy_end first.addr top
  refine ⟨_, Network.forced_destroy rfl wire (Network.forced_destroy rfl sent (.refl _)), empty,
    ((gone.trans taken).trans last).of_mem_iff fun slot => ?_⟩
  simp only [standing.link, List.mem_append, List.mem_cons, List.not_mem_nil]
  tauto

/-- A teardown takes out all of the circuit and nothing else exactly if it is a DESTROY from before the last hop and all
entries lie under one cid, or a close of a circuit of one hop. -/
theorem torn_down_iff (standing : Standing net originAddr origin handle first rest) (start : Teardown (first :: rest)) :
    TearsDown net (start.begin net originAddr origin handle) (circuitSlots originAddr handle (first :: rest)) ↔ start.Whole := by
  cases start with
  | close =>
    obtain ⟨net', path, empty, done⟩ := standing.forced_close
    rw [Teardown.begin, Network.tearsDown_iff_of_forced path empty, Teardown.Whole]
    cases rest with
    | nil => exact iff_of_true done rfl
    | cons next later =>
      refine iff_of_false (fun all => ?_) (by simp)
      have member : next.slot ∈ circuitSlots originAddr handle (first :: next :: later) := by simp [circuitSlots]
      have apart := standing.apart
      have gone := done.mem all member (standing.had member)
      simp only [circuitSlots, List.map_cons, List.nodup_cons, List.mem_cons, not_or] at apart
      rcases List.mem_cons.mp gone with home | hop
      · exact apart.1.2.1 home.symm
      · exact apart.2.1.1 (List.mem_singleton.mp hop).symm
  | prev before hop after split =>
    rw [Teardown.begin, Teardown.Whole]
    by_cases uniform : ∀ other ∈ first :: rest, other.cid = hop.cid
    · exact (standing.tearsDown_uniform split _ uniform).trans ⟨fun last => ⟨last, uniform⟩, fun whole => whole.1⟩
    · obtain ⟨other, member, differs⟩ := by simpa only [not_forall, exists_prop] using uniform
      exact iff_of_false (standing.not_tearsDown _ _ member differs) fun whole => uniform whole.2
  | next before hop after later split =>
    rw [Teardown.begin, Teardown.Whole, iff_false]
    by_cases uniform : ∀ other ∈ first :: rest, other.cid = after.cid
    · intro tearsDown
      exact List.cons_ne_nil _ _ ((standing.tearsDown_uniform split _ uniform).mp tearsDown)
    · obtain ⟨other, member, differs⟩ := by simpa only [not_forall, exists_prop] using uniform
      exact standing.not_tearsDown _ _ member differs

end Standing

namespace Transparent

open Nbf.Crypto.Transparent

theorem echo_standing (cid : UInt32) :
    Standing (echoNet cid) (localhost 9000) echoOrigin echoHandle nearHop [farHop cid] where
  present := (echo_ready cid).present
  quiet := rfl
  short := (echo_ready cid).short
  entry := ⟨_, _, _, .empty, rfl⟩
  link := rfl
  installed := (echo_ready cid).installed

def fromRelay : Teardown [nearHop, farHop 1] := .prev [nearHop] (farHop 1) [] rfl

theorem pair_torn_down :
    TearsDown (echoNet 1) (fromRelay.begin (echoNet 1) (localhost 9000) echoOrigin echoHandle)
      (circuitSlots (localhost 9000) echoHandle [nearHop, farHop 1]) :=
  ((echo_standing 1).torn_down_iff fromRelay).mpr ⟨rfl, by simp [nearHop, farHop]⟩

def closing : Teardown [nearHop, farHop 1] := .close

/-- The origin closes, and the terminal keeps its entry. -/
theorem close_leaves_terminal : Standing (echoNet 1) (localhost 9000) echoOrigin echoHandle nearHop [farHop 1] ∧
    (∃ labels net', Run Network.Step (closing.begin (echoNet 1) (localhost 9000) echoOrigin echoHandle) labels net' ∧
      net'.wire = [] ∧ net'.entryAt (localhost 9101) 1 = (echoNet 1).entryAt (localhost 9101) 1) ∧
    ¬ TearsDown (echoNet 1) (closing.begin (echoNet 1) (localhost 9000) echoOrigin echoHandle)
      (circuitSlots (localhost 9000) echoHandle [nearHop, farHop 1]) := by
  have standing := echo_standing 1
  obtain ⟨net', path, empty, done⟩ := standing.forced_close
  obtain ⟨labels, run⟩ := path.toRun
  have far : (localhost 9101, (1 : UInt32)) ∉ [(localhost 9000, echoHandle.cid), nearHop.slot] := by
    simp [nearHop, Hop.slot, echoHandle, localhost_ne]
  have still : net'.entryAt (localhost 9101) 1 = (echoNet 1).entryAt (localhost 9101) 1 := by rw [done, if_neg far]
  refine ⟨standing, ⟨labels, net', run, empty, still⟩, fun tearsDown => ?_⟩
  have member : (localhost 9101, (1 : UInt32)) ∈ circuitSlots (localhost 9000) echoHandle [nearHop, farHop 1] := by
    simp [circuitSlots, Hop.slot, farHop]
  have gone := tearsDown.2 labels net' run empty (localhost 9101) 1
  rw [if_pos member, still] at gone
  exact standing.had member gone

end Transparent
end Nbf.Net

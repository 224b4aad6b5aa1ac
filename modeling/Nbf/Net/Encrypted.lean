import Nbf.Net.Lifetime
import Nbf.Net.Session
import Nbf.Net.Stack

/-! A circuit over encrypted links, from the calls on its handle to what its streams are handed. -/

set_option autoImplicit false

namespace Nbf.Net

open Nbf.Library Nbf.Crypto

variable {C : Crates} {S : Snow}

inductive Spoken where
  | echo (tx : StreamTx) (msg : List UInt8)
  | sendData (msg : List UInt8) (stream : UInt16)
  | arrive (p : Packet) (data : List UInt8)
  | handle (p : Packet) (lookup : Lookup)

namespace Spoken

def event (C : Crates) (originAddr : SocketAddr) (handle : CircuitHandle) : Spoken → StackEvent C
  | .echo tx msg => .act originAddr fun node => ((node.echo handle tx msg).1, (node.echo handle tx msg).2.1)
  | .sendData msg stream => .act originAddr fun node => ((node.sendData handle msg stream).1, (node.sendData handle msg stream).2.1)
  | .arrive p data => .arrive p data
  | .handle p lookup => .handle p lookup

def asked : Spoken → Option (RCmd × List UInt8)
  | .echo _ msg => if msg.length ≤ msgMax then some (.echo, msg) else none
  | .sendData msg _ => if msg.length ≤ msgMax then some (.data, msg) else none
  | _ => none

def echoed : Spoken → Option (List UInt8)
  | .echo _ msg => if msg.length ≤ msgMax then some msg else none
  | _ => none

def Step (originAddr : SocketAddr) (handle : CircuitHandle) (s : Stack C S) (spoken : Spoken) (t : Stack C S) : Prop :=
  Such Stack.Step Stack.Intact s (spoken.event C originAddr handle) t

end Spoken

def Consecutive (first : Nat) (asks : List Ask) : Prop := ∀ i ask, asks[i]? = some ask → ask.number = first + i

theorem Consecutive.ascends {first : Nat} {asks : List Ask} (consecutive : Consecutive first asks) (positive : 0 < first) :
    Ascends Ask.number 0 asks := by
  constructor
  · intro ask member
    obtain ⟨i, here⟩ := List.mem_iff_getElem?.mp member
    rw [consecutive i ask here]
    omega
  · rw [List.pairwise_iff_getElem]
    intro i j hi hj less
    rw [consecutive i _ (List.getElem?_eq_getElem hi), consecutive j _ (List.getElem?_eq_getElem hj)]
    omega

variable {originAddr : SocketAddr} {handle : CircuitHandle} {first : Hop} {rest : List Hop}

theorem Talk.Going.echo_cases {k : Talk C} (going : k.Going originAddr handle first rest) {node : Node C}
    (present : k.net.nodes.get originAddr = some node) (tx : StreamTx) (msg : List UInt8) :
    (msg.length ≤ msgMax ∧ ∃ node' cell, node.echo handle tx msg = (node', [.sendCell first.addr cell], .ok ()) ∧
      node'.seqOrigin = node.seqOrigin + 1) ∨
      (¬ msg.length ≤ msgMax ∧ (node.echo handle tx msg).1 = node ∧ (node.echo handle tx msg).2.1 = []) := by
  obtain ⟨streams, entry, -⟩ := going.entry
  rw [Network.entryAt_of_get present] at entry
  by_cases short : msg.length ≤ msgMax
  · refine .inl ⟨short, ?_⟩
    simp only [Node.echo, if_neg (Nat.not_lt.mpr short), Node.registerStream, entry, Node.send, Table.get_insert_self]
    exact ⟨_, _, rfl, rfl⟩
  · refine .inr ⟨short, ?_⟩
    simp only [Node.echo, if_pos (Nat.not_le.mp short), and_self]

theorem Talk.Going.sendData_cases {k : Talk C} (going : k.Going originAddr handle first rest) {node : Node C}
    (present : k.net.nodes.get originAddr = some node) (msg : List UInt8) (stream : UInt16) :
    (msg.length ≤ msgMax ∧ ∃ node' cell, node.sendData handle msg stream = (node', [.sendCell first.addr cell], .ok ()) ∧
      node'.seqOrigin = node.seqOrigin + 1) ∨
      (¬ msg.length ≤ msgMax ∧ (node.sendData handle msg stream).1 = node ∧ (node.sendData handle msg stream).2.1 = []) := by
  obtain ⟨streams, entry, -⟩ := going.entry
  rw [Network.entryAt_of_get present] at entry
  by_cases short : msg.length ≤ msgMax
  · refine .inl ⟨short, ?_⟩
    simp only [Node.sendData, if_neg (Nat.not_lt.mpr short), Node.send, entry]
    exact ⟨_, _, rfl, rfl⟩
  · refine .inr ⟨short, ?_⟩
    simp only [Node.sendData, if_pos (Nat.not_le.mp short), and_self]

theorem leavesAlone_same {net : Network C} {addr : SocketAddr} {node : Node C} (present : net.nodes.get addr = some node)
    (cid : UInt32) : LeavesAlone cid net (net.update addr node [] net.wire) where
  entries a := by
    by_cases here : a = addr
    · subst here
      rw [Network.entryAt_of_get (Table.get_insert_self ..), Network.entryAt_of_get present]
    · simp only [Network.entryAt, Network.update, Table.get_insert_of_ne _ _ here]
  links a b := by rw [Network.update, packetsOf_nil, List.append_nil]

/-- What a stack and its circuit have in common, after the calls of `spoken`, from `s`. -/
structure Told (K : Counters S) (originAddr : SocketAddr) (handle : CircuitHandle) (first : Hop) (rest : List Hop) (s : Stack C S)
    (number : Nat) (spoken : List Spoken) (t : Stack C S) (k : Talk C) : Prop where
  refines : Refines k.net t
  joined : Joined K t
  going : k.Going originAddr handle first rest
  only : ∀ p ∈ k.net.wire, p.Own handle.cid
  heard : ∃ extra, k.net.notices = s.notices ++ extra ∧ k.heard = handed originAddr extra
  said : k.said.map (fun ask => (ask.rcmd, ask.msg)) = spoken.filterMap Spoken.asked
  consecutive : Consecutive number k.said
  next : ∃ node, k.net.nodes.get originAddr = some node ∧ node.seqOrigin.toNat = number + k.said.length

theorem handed_append (addr : SocketAddr) (notices notices' : List (SocketAddr × Effect)) :
    handed addr (notices ++ notices') = handed addr notices ++ handed addr notices' := List.filterMap_append

theorem Consecutive.snoc {number : Nat} {asks : List Ask} (consecutive : Consecutive number asks) {ask : Ask}
    (next : ask.number = number + asks.length) : Consecutive number (asks ++ [ask]) := by
  intro i other here
  rw [List.getElem?_append] at here
  split at here
  · exact consecutive i other here
  · obtain ⟨at_end, rfl⟩ := List.getElem?_eq_some_iff.mp here
    rw [List.length_singleton] at at_end
    rw [List.getElem_singleton, next]
    omega

namespace Told

variable {K : Counters S} {s t t' : Stack C S} {number : Nat} {spoken : List Spoken} {k : Talk C}

theorem few (told : Told K originAddr handle first rest s number spoken t k) : k.said.length ≤ spoken.length := by
  have same := congrArg List.length told.said
  rw [List.length_map] at same
  exact same ▸ List.length_filterMap_le ..

theorem say (told : Told K originAddr handle first rest s number spoken t k) (laws : C.Lawful)
    (uniform : Uniform originAddr handle first rest) (bound : number + k.said.length + 1 < 2 ^ 32) {node node' : Node C}
    (present : k.net.nodes.get originAddr = some node) (counts : node'.seqOrigin = node.seqOrigin + 1) {cell : Cell} {rcmd : RCmd}
    {stream : UInt16} {msg : List UInt8} {event : TalkEvent}
    (step : Talk.Step originAddr handle k event
      { k with net := k.net.update originAddr node' [.sendCell first.addr cell] k.net.wire,
               said := k.said ++ [⟨node.seqOrigin, rcmd, stream, msg⟩] })
    (here : event ≠ .elsewhere) {call : Spoken} (asked : call.asked = some (rcmd, msg))
    (refines : Refines (k.net.update originAddr node' [.sendCell first.addr cell] k.net.wire) t') (joined : Joined K t') :
    Told K originAddr handle first rest s number (spoken ++ [call]) t'
      { k with net := k.net.update originAddr node' [.sendCell first.addr cell] k.net.wire,
               said := k.said ++ [⟨node.seqOrigin, rcmd, stream, msg⟩] } := by
  obtain ⟨extra, notices, heard⟩ := told.heard
  have reached : node.seqOrigin.toNat = number + k.said.length := by
    obtain ⟨_, same, reached⟩ := told.next
    obtain rfl := Option.some.inj (present.symm.trans same)
    exact reached
  exact
    { refines, joined
      going := told.going.step laws uniform step
      only := told.going.only uniform step here told.only
      heard := ⟨extra, (List.append_nil _).trans notices, heard⟩
      said := by simp [told.said, asked]
      consecutive := told.consecutive.snoc reached
      next := by
        refine ⟨node', Table.get_insert_self .., ?_⟩
        rw [counts, UInt32.toNat_add, List.length_append, List.length_singleton]
        simp only [UInt32.toNat_one]
        omega }

theorem refused (told : Told K originAddr handle first rest s number spoken t k) {node : Node C}
    (present : k.net.nodes.get originAddr = some node) {call : Spoken} (silent : call.asked = none)
    (refines : Refines (k.net.update originAddr node [] k.net.wire) t') (joined : Joined K t') :
    Told K originAddr handle first rest s number (spoken ++ [call]) t'
      { k with net := k.net.update originAddr node [] k.net.wire } := by
  obtain ⟨extra, notices, heard⟩ := told.heard
  have reached := told.next
  obtain ⟨streams, entry, opened⟩ := told.going.entry
  have alone := leavesAlone_same present handle.cid
  obtain ⟨back, load, flows, replies, few⟩ := told.going.flows
  exact
    { refines, joined
      going :=
        { entry := ⟨streams, (alone.entries _).trans entry, opened⟩
          onOne := told.going.onOne
          fit := told.going.fit
          flows := ⟨back, load, flows.frame (fun a b _ => alone.links a b) fun hop _ => alone.entries hop.addr, replies, few⟩
          places := fun a b some => told.going.places a b (alone.links a b ▸ some) }
      only := by simpa [Network.update] using told.only
      heard := ⟨extra, (List.append_nil _).trans notices, heard⟩
      said := by simp [told.said, silent]
      consecutive := told.consecutive
      next := by
        obtain ⟨_, same, reached⟩ := told.next
        obtain rfl := Option.some.inj (present.symm.trans same)
        exact ⟨node, Table.get_insert_self .., reached⟩ }

theorem handled (told : Told K originAddr handle first rest s number spoken t k) (laws : C.Lawful)
    (uniform : Uniform originAddr handle first rest) {p : Packet} {lookup : Lookup} {net' : Network C}
    (does : k.net.Does (.handle p lookup) net') (refines : Refines net' t') (joined : Joined K t') :
    ∃ k', Told K originAddr handle first rest s number (spoken ++ [.handle p lookup]) t' k' := by
  obtain ⟨before, after, wire, first_of, rfl⟩ := does
  have own : p.Own handle.cid := told.only p (by simp [wire])
  have step : Talk.Step originAddr handle k (.arrive p) _ := .arrive own (.deliver lookup wire first_of)
  obtain ⟨extra, notices, heard⟩ := told.heard
  obtain ⟨node, present, reached⟩ := told.next
  obtain ⟨more, grown, next⟩ : ∃ more, (k.net.receive lookup p (before ++ after)).notices = k.net.notices ++ more ∧
      ∃ node', (k.net.receive lookup p (before ++ after)).nodes.get originAddr = some node' ∧
        node'.seqOrigin = node.seqOrigin := by
    unfold Network.receive
    split
    · exact ⟨[], (List.append_nil _).symm, node, present, rfl⟩
    next other there =>
      refine ⟨_, rfl, ?_⟩
      by_cases home : originAddr = p.dst
      · subst home
        obtain rfl := Option.some.inj (present.symm.trans there)
        exact ⟨_, Table.get_insert_self .., node.handleCell_seqOrigin lookup p.src p.cell⟩
      · exact ⟨node, (Table.get_insert_of_ne _ _ home).trans present, rfl⟩
  obtain ⟨node', present', same⟩ := next
  exact ⟨_,
    { refines, joined
      going := told.going.step laws uniform step
      only := told.going.only uniform step nofun told.only
      heard := ⟨extra ++ more, by rw [grown, notices, List.append_assoc], by
        rw [handed_append, heard, grown, List.drop_left]⟩
      said := by simp [told.said, Spoken.asked, List.filterMap_cons]
      consecutive := told.consecutive
      next := ⟨node', present', by rw [same, reached]⟩ }⟩

theorem step (told : Told K originAddr handle first rest s number spoken t k) (laws : C.Lawful) (counts : K.Lawful)
    (uniform : Uniform originAddr handle first rest) (bound : number + spoken.length + 1 < 2 ^ 32) {call : Spoken}
    (step : call.Step originAddr handle t t') : ∃ k', Told K originAddr handle first rest s number (spoken ++ [call]) t' k' := by
  have few := told.few
  obtain ⟨net', does, refines, joined⟩ := told.refines.step told.joined counts step.1 step.2
  cases call with
  | arrive p data =>
    obtain rfl : net' = k.net := does
    exact ⟨k, { told with refines, joined, said := by simp [told.said, Spoken.asked, List.filterMap_cons] }⟩
  | handle p lookup => exact told.handled laws uniform does refines joined
  | echo tx msg =>
    obtain ⟨node, present, rfl⟩ := does
    rcases told.going.echo_cases present tx msg with ⟨short, node', cell, asked, next⟩ | ⟨long, same, nothing⟩
    · simp only [asked] at refines
      exact ⟨_, told.say laws uniform (by omega) present next (.echo present asked) nofun (if_pos short) refines joined⟩
    · simp only [same, nothing] at refines
      exact ⟨_, told.refused present (if_neg long) refines joined⟩
  | sendData msg stream =>
    obtain ⟨node, present, rfl⟩ := does
    rcases told.going.sendData_cases present msg stream with ⟨short, node', cell, asked, next⟩ | ⟨long, same, nothing⟩
    · simp only [asked] at refines
      exact ⟨_, told.say laws uniform (by omega) present next (.sendData present asked) nofun (if_pos short) refines joined⟩
    · simp only [same, nothing] at refines
      exact ⟨_, told.refused present (if_neg long) refines joined⟩

end Told

namespace Transparent

open Nbf.Crypto.Transparent CountedNoise

end Transparent
end Nbf.Net

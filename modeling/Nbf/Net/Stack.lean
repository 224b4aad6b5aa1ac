import Nbf.Library.Lanes
import Nbf.Net.Channel
import Nbf.Net.Echo

/-! Nodes on top of their encrypted links, and the network that they make.

A host is a node with its link. Between any two hosts there is a session; the
handlers send through it, and what arrives waits in the link's queue until the
node takes it. A node takes the cells of one sender in the order in which they came,
and has handled one before it takes the next; then this is, seen from above, a network
whose links lose nothing, duplicate nothing and keep order.
-/

set_option autoImplicit false

namespace Nbf.Net

open Nbf.Library Nbf.Crypto

variable {C : Crates} {S : Snow}

variable (C S) in
structure Host where
  node : Node C
  link : Link S

variable (C S) in
structure Stack where
  hosts : Table SocketAddr (Host C S)
  /-- The datagrams under way, with the cells that they are, oldest first. -/
  air : List (Packet × List UInt8)
  notices : List (SocketAddr × Effect)

def flying (air : List (Packet × List UInt8)) (a b : SocketAddr) : List (Cell × List UInt8) :=
  lane (fun q => (q.1.src, q.1.dst)) (fun q => (q.1.cell, q.2)) (a, b) air

def Link.waiting (l : Link S) (src : SocketAddr) : List Cell := lane Prod.fst Prod.snd src l.tx

def between (wire : List Packet) (a b : SocketAddr) : List Cell :=
  lane (fun p => (p.src, p.dst)) Packet.cell (a, b) wire

/-- A host's link carries out the effects one by one, and puts `out` on the air. -/
inductive Ships (addr : SocketAddr) : Link S → List Effect → List (Packet × List UInt8) → Link S → Prop where
  | done (l : Link S) : Ships addr l [] [] l
  | sendCell {l l₁ l' : Link S} {i : Nat} {dst : SocketAddr} {cell : Cell} {effects : List Effect}
      {out : List (SocketAddr × List UInt8)} {more : List (Packet × List UInt8)} :
      l.Sends i dst cell out l₁ → Ships addr l₁ effects more l' →
      Ships addr l (.sendCell dst cell :: effects) (out.map (fun sent => (⟨addr, dst, cell⟩, sent.2)) ++ more) l'
  | ensurePeerLink {l l' : Link S} {peer : SocketAddr} {key : Octets 32} {effects : List Effect}
      {more : List (Packet × List UInt8)} : Ships addr (l.setPeerStatic peer key) effects more l' →
      Ships addr l (.ensurePeerLink peer key :: effects) more l'
  | resolve {l l' : Link S} {tx : OneshotTx} {effects : List Effect} {more : List (Packet × List UInt8)} :
      Ships addr l effects more l' → Ships addr l (.resolve tx :: effects) more l'
  | deliver {l l' : Link S} {tx : StreamTx} {data : List UInt8} {effects : List Effect} {more : List (Packet × List UInt8)} :
      Ships addr l effects more l' → Ships addr l (.deliver tx data :: effects) more l'

abbrev NodeAct (C : Crates) := Node C → Node C × List Effect

variable (C) in
inductive StackEvent where
  /-- A datagram arrives. -/
  | arrive (p : Packet) (data : List UInt8)
  /-- A node handles a cell that waits. -/
  | handle (p : Packet) (lookup : Lookup)
  | act (addr : SocketAddr) (act : NodeAct C)

namespace Stack

def update (s : Stack C S) (addr : SocketAddr) (host : Host C S) (effects : List Effect) (out : List (Packet × List UInt8)) :
    Stack C S :=
  { hosts := s.hosts.insert addr host, air := s.air ++ out, notices := s.notices ++ noticesOf addr effects }

inductive Step : Stack C S → StackEvent C → Stack C S → Prop where
  | arrive {s : Stack C S} {before after : List (Packet × List UInt8)} {p : Packet} {data : List UInt8} {eph : S.Ephemeral}
      {host : Host C S} {l : Link S} {sent : Sent} : s.air = before ++ (p, data) :: after →
      (∀ q ∈ before, (q.1.src, q.1.dst) ≠ (p.src, p.dst)) → s.hosts.get p.dst = some host →
      host.link.step (.receive p.src data eph) = some (l, sent) →
      Step s (.arrive p data) { s with hosts := s.hosts.insert p.dst ⟨host.node, l⟩, air := before ++ after }
  | handle {s : Stack C S} {before after : List (SocketAddr × Cell)} {p : Packet} {lookup : Lookup} {host : Host C S}
      {out : List (Packet × List UInt8)} {l : Link S} : s.hosts.get p.dst = some host →
      host.link.tx = before ++ (p.src, p.cell) :: after → (∀ q ∈ before, q.1 ≠ p.src) →
      Ships p.dst { host.link with tx := before ++ after } (host.node.handleCell lookup p.src p.cell).2 out l →
      Step s (.handle p lookup)
        (s.update p.dst ⟨(host.node.handleCell lookup p.src p.cell).1, l⟩ (host.node.handleCell lookup p.src p.cell).2 out)
  | act {s : Stack C S} {addr : SocketAddr} {act : NodeAct C} {host : Host C S} {out : List (Packet × List UInt8)} {l : Link S} :
      s.hosts.get addr = some host → Ships addr host.link (act host.node).2 out l →
      Step s (.act addr act) (s.update addr ⟨(act host.node).1, l⟩ (act host.node).2 out)

/-- The host at `addr` sends to hosts that it has a session with, and no send fails: every cell that can be encoded is
on the air. -/
def Sent (s : Stack C S) (addr : SocketAddr) (effects : Node C → List Effect) (s' : Stack C S) : Prop :=
  ∀ host, s.hosts.get addr = some host →
    (∀ dst cell, .sendCell dst cell ∈ effects host.node → (host.link.sessions.get dst).isSome) ∧
    s'.air.map Prod.fst = s.air.map Prod.fst ++ packetsOf addr (effects host.node)

/-- And no datagram begins like a handshake fragment. -/
def Intact (s : Stack C S) (event : StackEvent C) (s' : Stack C S) : Prop :=
  match event with
  | .arrive _ data => data.head? ≠ some 0x7F
  | .handle p lookup => s.Sent p.dst (fun node => (node.handleCell lookup p.src p.cell).2) s'
  | .act addr act => s.Sent addr (fun node => (act node).2) s'

end Stack

/-! ## The links -/

theorem flying_append (air air' : List (Packet × List UInt8)) (a b : SocketAddr) :
    flying (air ++ air') a b = flying air a b ++ flying air' a b := lane_append

theorem flying_sent (addr dst : SocketAddr) (cell : Cell) (out : List (SocketAddr × List UInt8)) (a b : SocketAddr) :
    flying (out.map fun sent => (⟨addr, dst, cell⟩, sent.2)) a b =
      if (addr, dst) = (a, b) then out.map fun sent => (cell, sent.2) else [] := by
  by_cases here : (addr, dst) = (a, b)
  · rw [if_pos here, flying, lane_eq_map, List.map_map]
    · rfl
    · rw [List.forall_mem_map]
      exact fun _ _ => here
  · rw [if_neg here, flying, lane_eq_nil]
    rw [List.forall_mem_map]
    exact fun _ _ => here

/-- Two links with sessions of one handshake, each behind the other by what is under way. -/
def Linked (K : Counters S) (a b : SocketAddr) (l r : Link S) (air : List (Packet × List UInt8)) : Prop :=
  ∃ handshake side t u, Channel.Follows K b a handshake side ⟨l, r, flying air a b, 0⟩ t u ∧
    Channel.Follows K a b handshake (!side) ⟨r, l, flying air b a, 0⟩ u t

namespace Linked

variable {K : Counters S} {a b : SocketAddr} {l l' r : Link S} {air air' : List (Packet × List UInt8)}

theorem symm (linked : Linked K a b l r air) : Linked K b a r l air := by
  obtain ⟨handshake, side, t, u, out, back⟩ := linked
  exact ⟨handshake, !side, u, t, back, by rwa [Bool.not_not]⟩

theorem session (linked : Linked K a b l r air) : ∃ t, l.sessions.get b = some t := by
  obtain ⟨_, _, t, _, out, _⟩ := linked
  exact ⟨t, out.has⟩

theorem aside (linked : Linked K a b l r air) (session : l'.sessions.get b = l.sessions.get b)
    (out : flying air' a b = flying air a b) (back : flying air' b a = flying air b a) : Linked K a b l' r air' := by
  obtain ⟨handshake, side, t, u, forth, home⟩ := linked
  refine ⟨handshake, side, t, u, ?_, ?_⟩
  · rw [out]
    exact forth.sender_moves (session.trans forth.has) ⟨rfl, rfl⟩ rfl
  · rw [back]
    exact home.receiver_moves (session.trans home.has') ⟨rfl, rfl⟩ rfl

theorem send (linked : Linked K a b l r air) (laws : K.Lawful) (apart : a ≠ b) {i : Nat} {cell : Cell}
    {out : List (SocketAddr × List UInt8)} (sends : l.Sends i b cell out l') :
    Linked K a b l' r (air ++ out.map fun sent => (⟨a, b, cell⟩, sent.2)) := by
  obtain ⟨handshake, side, t, u, forth, home⟩ := linked
  obtain ⟨t', sent, received⟩ := forth.send laws sends
  refine ⟨handshake, side, t', u, ?_, ?_⟩
  · rw [flying_append, flying_sent, if_pos rfl]
    exact sent
  · rw [flying_append, flying_sent, if_neg fun same => apart (Prod.mk.inj same).1, List.append_nil]
    refine home.receiver_moves sent.has ⟨?_, ?_⟩ received
    · rw [sent.sender.1, forth.sender.1]
    · rw [sent.sender.2, forth.sender.2]

theorem arrive (linked : Linked K a b l r air) (laws : K.Lawful) (eph : S.Ephemeral) {first : Cell × List UInt8}
    (next : flying air a b = first :: flying air' a b) (back : flying air' b a = flying air b a)
    (other : first.2.head? ≠ some 0x7F) : Linked K a b l (r.receive a first.2 eph) air' ∧
      (r.receive a first.2 eph).tx = r.tx ++ [(a, first.1)] ∧
      ∀ c ≠ a, (r.receive a first.2 eph).sessions.get c = r.sessions.get c := by
  obtain ⟨handshake, side, t, u, forth, home⟩ := linked
  obtain ⟨handed, same, u', after, sent⟩ := forth.arrive laws next eph rfl other
  refine ⟨⟨handshake, side, t, u', after, ?_⟩, handed, fun c away => ?_⟩
  · rw [back]
    refine home.sender_moves after.has' ⟨?_, ?_⟩ sent
    · rw [after.receiver.1, forth.receiver.1]
    · rw [after.receiver.2, forth.receiver.2]
  · obtain ⟨tx, kept | ⟨t, out, t', -, -, kept⟩⟩ := r.receiveCell_cases a first.2
    · exact (congrArg (fun l => l.sessions.get c) (same.trans kept)).trans rfl
    · exact (congrArg (fun l => l.sessions.get c) (same.trans kept)).trans (Table.get_insert_of_ne _ _ away)

end Linked

theorem Link.Sends.keeps {l l' : Link S} {i : Nat} {dst : SocketAddr} {cell : Cell} {out : List (SocketAddr × List UInt8)}
    (sends : l.Sends i dst cell out l') (has : (l.sessions.get dst).isSome) :
    l'.tx = l.tx ∧ (∀ c ≠ dst, l'.sessions.get c = l.sessions.get c) ∧
      ∀ c, (l'.sessions.get c).isSome = (l.sessions.get c).isSome := by
  obtain ⟨t, here⟩ := Option.isSome_iff_exists.mp has
  obtain ⟨result, ⟨-, rfl⟩ | ⟨_, _, t', -, -, -, rfl⟩⟩ := sends.cases here
  · exact ⟨rfl, fun _ _ => rfl, fun _ => rfl⟩
  · refine ⟨rfl, fun c away => Table.get_insert_of_ne _ _ away, fun c => ?_⟩
    by_cases target : c = dst
    · rw [target, has]
      simp [Link.put]
    · exact congrArg Option.isSome (Table.get_insert_of_ne _ _ target)

namespace Ships

variable {K : Counters S} {a : SocketAddr} {l l' : Link S} {effects : List Effect} {out : List (Packet × List UInt8)}

theorem keeps (ships : Ships a l effects out l')
    (has : ∀ dst cell, .sendCell dst cell ∈ effects → (l.sessions.get dst).isSome) :
    l'.tx = l.tx ∧ ∀ c, (l'.sessions.get c).isSome = (l.sessions.get c).isSome := by
  induction ships with
  | done l => exact ⟨rfl, fun _ => rfl⟩
  | @sendCell l l₁ l' i dst cell effects out more sends _ ih =>
    obtain ⟨tx, -, same⟩ := sends.keeps (has dst cell List.mem_cons_self)
    obtain ⟨tx', later⟩ := ih fun dst cell member => same dst ▸ has dst cell (List.mem_cons_of_mem _ member)
    exact ⟨tx'.trans tx, fun c => (later c).trans (same c)⟩
  | ensurePeerLink _ ih | resolve _ ih | deliver _ ih => exact ih fun dst cell member => has dst cell (List.mem_cons_of_mem _ member)

theorem places (ships : Ships a l effects out l')
    (has : ∀ dst cell, .sendCell dst cell ∈ effects → (l.sessions.get dst).isSome) :
    ∀ q ∈ out, q.1.src = a ∧ (l.sessions.get q.1.dst).isSome := by
  induction ships with
  | done l => simp
  | @sendCell l l₁ l' i dst cell effects out more sends rest ih =>
    have first := has dst cell List.mem_cons_self
    obtain ⟨-, -, same⟩ := sends.keeps first
    intro q member
    rcases List.mem_append.mp member with now | later
    · obtain ⟨sent, -, rfl⟩ := List.mem_map.mp now
      exact ⟨rfl, first⟩
    · obtain ⟨src, there⟩ := ih (fun dst cell member => same dst ▸ has dst cell (List.mem_cons_of_mem _ member)) q later
      exact ⟨src, same _ ▸ there⟩
  | ensurePeerLink _ ih | resolve _ ih | deliver _ ih => exact ih fun dst cell member => has dst cell (List.mem_cons_of_mem _ member)

theorem linked (ships : Ships a l effects out l') (laws : K.Lawful) {b : SocketAddr} (apart : a ≠ b) {r : Link S}
    {air : List (Packet × List UInt8)} (linked : Linked K a b l r air)
    (has : ∀ dst cell, .sendCell dst cell ∈ effects → (l.sessions.get dst).isSome) : Linked K a b l' r (air ++ out) := by
  induction ships generalizing air with
  | done l => rwa [List.append_nil]
  | @sendCell l l₁ l' i dst cell effects out more sends rest ih =>
    obtain ⟨-, others, same⟩ := sends.keeps (has dst cell List.mem_cons_self)
    rw [← List.append_assoc]
    refine ih ?_ fun dst cell member => same dst ▸ has dst cell (List.mem_cons_of_mem _ member)
    -- Only the session with `dst` moves.
    by_cases target : dst = b
    · subst target
      exact linked.send laws apart sends
    · refine linked.aside (others b (Ne.symm target)) ?_ ?_
      · rw [flying_append, flying_sent, if_neg fun same => target (Prod.mk.inj same).2, List.append_nil]
      · rw [flying_append, flying_sent, if_neg fun same => apart (Prod.mk.inj same).1, List.append_nil]
  | ensurePeerLink _ ih =>
    exact ih (linked.aside rfl rfl rfl) fun dst cell member => has dst cell (List.mem_cons_of_mem _ member)
  | resolve _ ih | deliver _ ih => exact ih linked fun dst cell member => has dst cell (List.mem_cons_of_mem _ member)

end Ships

/-- Every two hosts have a session, and no host has one with itself. -/
structure Joined (K : Counters S) (s : Stack C S) : Prop where
  linked : ∀ a b host peer, a ≠ b → s.hosts.get a = some host → s.hosts.get b = some peer → Linked K a b host.link peer.link s.air
  hosts : ∀ a host dst, s.hosts.get a = some host → (host.link.sessions.get dst).isSome → dst ≠ a ∧ (s.hosts.get dst).isSome
  air : ∀ q ∈ s.air, q.1.src ≠ q.1.dst ∧ (s.hosts.get q.1.src).isSome ∧ (s.hosts.get q.1.dst).isSome

namespace Joined

variable {K : Counters S} {s : Stack C S} {a : SocketAddr} {host : Host C S}

theorem isSome_update (present : s.hosts.get a = some host) (host' : Host C S) (b : SocketAddr) :
    ((s.hosts.insert a host').get b).isSome = (s.hosts.get b).isSome := by
  by_cases here : b = a
  · rw [here, Table.get_insert_self, present]
    rfl
  · rw [Table.get_insert_of_ne _ _ here]

theorem ships (joined : Joined K s) (laws : K.Lawful) (present : s.hosts.get a = some host) {l l' : Link S}
    (same : l.sessions = host.link.sessions) {effects : List Effect} {out : List (Packet × List UInt8)}
    (ships : Ships a l effects out l') (has : ∀ dst cell, .sendCell dst cell ∈ effects → (l.sessions.get dst).isSome)
    (node : Node C) : Joined K (s.update a ⟨node, l'⟩ effects out) where
  linked x y hx hy apart here there := by
    have silent (x y : SocketAddr) (away : x ≠ a) : flying out x y = [] := by
      refine lane_eq_nil fun q member same => away ?_
      exact (Prod.mk.inj same).1.symm.trans (ships.places has q member).1
    have linked (y : SocketAddr) (apart : a ≠ y) (peer : Host C S) (there : s.hosts.get y = some peer) :
        Linked K a y l' peer.link (s.air ++ out) :=
      ships.linked laws apart ((joined.linked a y host peer apart present there).aside (by rw [same]) rfl rfl) has
    simp only [Stack.update] at here there ⊢
    by_cases at_x : x = a
    · subst at_x
      rw [Table.get_insert_self, Option.some.injEq] at here
      rw [Table.get_insert_of_ne _ _ apart.symm] at there
      exact here ▸ linked y apart hy there
    · rw [Table.get_insert_of_ne _ _ at_x] at here
      by_cases at_y : y = a
      · subst at_y
        rw [Table.get_insert_self, Option.some.injEq] at there
        exact there ▸ (linked x (Ne.symm at_x) hx here).symm
      · rw [Table.get_insert_of_ne _ _ at_y] at there
        refine (joined.linked x y hx hy apart here there).aside rfl ?_ ?_
        · rw [flying_append, silent x y at_x, List.append_nil]
        · rw [flying_append, silent y x at_y, List.append_nil]
  hosts x hx dst here has' := by
    simp only [Stack.update] at here ⊢
    rw [isSome_update present]
    by_cases at_x : x = a
    · subst at_x
      rw [Table.get_insert_self, Option.some.injEq] at here
      refine joined.hosts x host dst present ?_
      rw [← here] at has'
      rwa [(ships.keeps has).2, same] at has'
    · rw [Table.get_insert_of_ne _ _ at_x] at here
      exact joined.hosts x hx dst here has'
  air q member := by
    simp only [Stack.update] at member ⊢
    rw [isSome_update present, isSome_update present]
    rcases List.mem_append.mp member with before | sent
    · exact joined.air q before
    · obtain ⟨src, session⟩ := ships.places has q sent
      rw [same] at session
      obtain ⟨other, there⟩ := joined.hosts a host _ present session
      exact ⟨src ▸ other.symm, by rw [src, present]; rfl, there⟩

theorem arrive (joined : Joined K s) (laws : K.Lawful) {before after : List (Packet × List UInt8)} {p : Packet}
    {data : List UInt8} (air : s.air = before ++ (p, data) :: after)
    (first : ∀ q ∈ before, (q.1.src, q.1.dst) ≠ (p.src, p.dst)) (present : s.hosts.get p.dst = some host) (eph : S.Ephemeral)
    (other : data.head? ≠ some 0x7F) :
    Joined K { s with hosts := s.hosts.insert p.dst ⟨host.node, host.link.receive p.src data eph⟩, air := before ++ after } ∧
      (host.link.receive p.src data eph).tx = host.link.tx ++ [(p.src, p.cell)] := by
  obtain ⟨apart, from_host, -⟩ := joined.air (p, data) (by simp [air])
  obtain ⟨sender, origin⟩ := Option.isSome_iff_exists.mp from_host
  have removed (a b : SocketAddr) : flying s.air a b =
      (if (p.src, p.dst) = (a, b) then [(p.cell, data)] else []) ++ flying (before ++ after) a b := by
    rw [air]
    exact lane_removed first (a, b)
  have aside {a b : SocketAddr} (away : (p.src, p.dst) ≠ (a, b)) : flying (before ++ after) a b = flying s.air a b := by
    rw [removed, if_neg away, List.nil_append]
  have next : flying s.air p.src p.dst = (p.cell, data) :: flying (before ++ after) p.src p.dst := by
    rw [removed, if_pos rfl, List.singleton_append]
  obtain ⟨linked, handed, sessions⟩ := (joined.linked p.src p.dst sender host apart origin present).arrive laws eph next
    (aside fun same => apart (Prod.mk.inj same).1) other
  -- The receiver's link and those of the other hosts.
  have taken (b : SocketAddr) (y : Host C S) (ne : p.dst ≠ b) (there : s.hosts.get b = some y) :
      Linked K p.dst b (host.link.receive p.src data eph) y.link (before ++ after) := by
    by_cases source : b = p.src
    · rw [source, origin, Option.some.injEq] at there
      rw [source, ← there]
      exact linked.symm
    · exact (joined.linked p.dst b host y ne present there).aside (sessions b source)
        (aside fun same => apart (Prod.mk.inj same).1) (aside fun same => source (Prod.mk.inj same).1.symm)
  refine ⟨⟨fun a b x y ne here there => ?_, fun a x dst here has => ?_, fun q member => ?_⟩, handed⟩
  · dsimp only at here there ⊢
    by_cases at_a : a = p.dst
    · subst at_a
      rw [Table.get_insert_self, Option.some.injEq] at here
      rw [Table.get_insert_of_ne _ _ ne.symm] at there
      exact here ▸ taken b y ne there
    · rw [Table.get_insert_of_ne _ _ at_a] at here
      by_cases at_b : b = p.dst
      · subst at_b
        rw [Table.get_insert_self, Option.some.injEq] at there
        exact there ▸ (taken a x ne.symm here).symm
      · rw [Table.get_insert_of_ne _ _ at_b] at there
        exact (joined.linked a b x y ne here there).aside rfl (aside fun same => at_b (Prod.mk.inj same).2.symm)
          (aside fun same => at_a (Prod.mk.inj same).2.symm)
  · dsimp only at here ⊢
    rw [isSome_update present]
    by_cases at_a : a = p.dst
    · subst at_a
      rw [Table.get_insert_self, Option.some.injEq] at here
      refine joined.hosts p.dst host dst present ?_
      by_cases source : dst = p.src
      · obtain ⟨t, session⟩ := (joined.linked p.dst p.src host sender (Ne.symm apart) present origin).session
        rw [source, session]
        rfl
      · rwa [← here, sessions dst source] at has
    · rw [Table.get_insert_of_ne _ _ at_a] at here
      exact joined.hosts a x dst here has
  · dsimp only at member ⊢
    rw [isSome_update present, isSome_update present]
    refine joined.air q ?_
    rw [air]
    simp only [List.mem_append, List.mem_cons] at member ⊢
    tauto

end Joined

/-- The network has the hosts' nodes, and its wire is what waits and what is under way. -/
structure Refines (net : Network C) (s : Stack C S) : Prop where
  nodes : ∀ a, net.nodes.get a = (s.hosts.get a).map Host.node
  notices : net.notices = s.notices
  wire : ∀ a b host, s.hosts.get b = some host → between net.wire a b = host.link.waiting a ++ (flying s.air a b).map Prod.fst
  nowhere : ∀ a b, s.hosts.get b = none → between net.wire a b = []

def Network.Does (net : Network C) (event : StackEvent C) (net' : Network C) : Prop :=
  match event with
  | .arrive _ _ => net' = net
  | .handle p lookup => ∃ before after, net.wire = before ++ p :: after ∧
      (∀ q ∈ before, ¬ (q.src = p.src ∧ q.dst = p.dst)) ∧ net' = net.receive lookup p (before ++ after)
  | .act addr act => ∃ node, net.nodes.get addr = some node ∧ net' = net.update addr (act node).1 (act node).2 net.wire

namespace Refines

variable {K : Counters S} {net : Network C} {s s' : Stack C S}

theorem between_packets (packets : List Packet) (a b : SocketAddr) (out : List (Packet × List UInt8))
    (same : out.map Prod.fst = packets) : between packets a b = (flying out a b).map Prod.fst := by
  subst same
  induction out with
  | nil => rfl
  | cons q out ih =>
    simp only [List.map_cons, between, flying, lane_cons] at ih ⊢
    rw [ih]
    split <;> simp

theorem update (refines : Refines net s) {a : SocketAddr} {host : Host C S} (present : s.hosts.get a = some host) (node : Node C)
    {l : Link S} {effects : List Effect} {out : List (Packet × List UInt8)} (sent : out.map Prod.fst = packetsOf a effects)
    (reach : ∀ q ∈ out, (s.hosts.get q.1.dst).isSome) {wire : List Packet}
    (own : ∀ x, between wire x a = l.waiting x ++ (flying s.air x a).map Prod.fst)
    (others : ∀ x y, y ≠ a → between wire x y = between net.wire x y) :
    Refines (net.update a node effects wire) (s.update a ⟨node, l⟩ effects out) where
  nodes x := by
    simp only [Network.update, Stack.update]
    by_cases here : x = a
    · rw [here, Table.get_insert_self, Table.get_insert_self]
      rfl
    · rw [Table.get_insert_of_ne _ _ here, Table.get_insert_of_ne _ _ here, refines.nodes]
  notices := by rw [Network.update, Stack.update, refines.notices]
  wire x y peer there := by
    simp only [Network.update, Stack.update] at there ⊢
    rw [flying_append, List.map_append, ← between_packets _ x y out sent, ← List.append_assoc]
    refine lane_append.trans (congrArg (· ++ _) ?_)
    by_cases here : y = a
    · subst here
      rw [Table.get_insert_self, Option.some.injEq] at there
      exact there ▸ own x
    · rw [Table.get_insert_of_ne _ _ here] at there
      exact (others x y here).trans (refines.wire x y peer there)
  nowhere x y absent := by
    simp only [Network.update, Stack.update] at absent ⊢
    have away : y ≠ a := by
      rintro rfl
      rw [Table.get_insert_self] at absent
      cases absent
    rw [Table.get_insert_of_ne _ _ away] at absent
    refine lane_append.trans ?_
    have silent : between (packetsOf a effects) x y = [] := by
      rw [between_packets _ x y out sent, List.map_eq_nil_iff]
      refine lane_eq_nil fun q member same => ?_
      have there := reach q member
      rw [(Prod.mk.inj same).2, absent] at there
      cases there
    exact (congrArg₂ (· ++ ·) ((others x y away).trans (refines.nowhere x y absent)) silent)

end Refines

def Stack.above (s : Stack C S) : Network C := ⟨fun a => (s.hosts.get a).map Host.node, [], s.notices⟩

structure Stack.Idle (s : Stack C S) : Prop where
  air : s.air = []
  queues : ∀ a host, s.hosts.get a = some host → host.link.tx = []

theorem Stack.Idle.refines {s : Stack C S} (idle : s.Idle) : Refines s.above s where
  nodes _ := rfl
  notices := rfl
  wire a b host present := by
    rw [Link.waiting, idle.queues b host present, idle.air]
    rfl
  nowhere _ _ _ := rfl

theorem Refines.quiet {net : Network C} {s : Stack C S} (refines : Refines net s) (idle : s.Idle) : net.wire = [] := by
  cases wire : net.wire with
  | nil => rfl
  | cons p rest =>
    have none : between net.wire p.src p.dst = [] := by
      cases present : s.hosts.get p.dst with
      | none => exact refines.nowhere p.src p.dst present
      | some host =>
        rw [refines.wire p.src p.dst host present, Link.waiting, idle.queues p.dst host present, idle.air]
        rfl
    rw [wire, between, lane_cons, if_pos rfl] at none
    cases none

variable {K : Counters S} {net : Network C} {s s' : Stack C S} {event : StackEvent C}

/-- Every step of the stack is one of the network above, or none where a datagram arrives. -/
theorem Refines.step (refines : Refines net s) (joined : Joined K s) (laws : K.Lawful) (step : Stack.Step s event s')
    (intact : s.Intact event s') : ∃ net', net.Does event net' ∧ Refines net' s' ∧ Joined K s' := by
  cases step with
  | @arrive before after p data eph host l sent air first present received =>
    obtain rfl := Link.receive_of_step received
    obtain ⟨joined', handed⟩ := joined.arrive laws air first present eph intact
    -- An arrival only moves a cell from under way to waiting, so the network above stays as it is.
    have removed (a b : SocketAddr) : flying s.air a b =
        (if (p.src, p.dst) = (a, b) then [(p.cell, data)] else []) ++ flying (before ++ after) a b := by
      rw [air]
      exact lane_removed first (a, b)
    refine ⟨net, rfl, ⟨fun a => ?_, refines.notices, fun a b peer there => ?_,
      fun a b absent => refines.nowhere a b ?_⟩, joined'⟩
    · rw [refines.nodes]
      by_cases here : a = p.dst
      · rw [here, Table.get_insert_self, present]
        rfl
      · rw [Table.get_insert_of_ne _ _ here]
    · dsimp only at there ⊢
      by_cases here : b = p.dst
      · subst here
        rw [Table.get_insert_self, Option.some.injEq] at there
        rw [refines.wire a _ host present, ← there, Link.waiting, Link.waiting, handed, lane_append, lane_cons, removed]
        by_cases source : p.src = a
        · subst source
          simp [lane]
        · simp [source, lane]
      · rw [Table.get_insert_of_ne _ _ here] at there
        rw [refines.wire a b peer there, removed, if_neg fun same => here (Prod.mk.inj same).2.symm, List.nil_append]
    · have kept := Joined.isSome_update present ⟨host.node, host.link.receive p.src data eph⟩ b
      rw [absent] at kept
      exact Option.isNone_iff_eq_none.mp (by simpa using kept.symm)
  | @handle before after p lookup host out l present waits first ships =>
    obtain ⟨has, onAir⟩ := intact host present
    rw [Stack.update, List.map_append, List.append_cancel_left_eq] at onAir
    have kept := (ships.keeps has).1
    have places := ships.places has
    have queue (x : SocketAddr) : host.link.waiting x = (if p.src = x then [p.cell] else []) ++ l.waiting x := by
      rw [Link.waiting, waits, Link.waiting, kept]
      exact lane_removed first x
    -- The cell that waits longest is the first of its link.
    have next : between net.wire p.src p.dst = p.cell :: (l.waiting p.src ++ (flying s.air p.src p.dst).map Prod.fst) := by
      rw [refines.wire p.src p.dst host present, queue, if_pos rfl, List.append_assoc, List.singleton_append]
    obtain ⟨before', q, after', wire, place, cell, none⟩ := exists_of_lane_cons next
    obtain rfl : q = p := by
      obtain ⟨src, dst⟩ := Prod.mk.inj place
      cases q
      cases p
      simp_all
    have removed (x y : SocketAddr) : between net.wire x y =
        (if (q.src, q.dst) = (x, y) then [q.cell] else []) ++ between (before' ++ after') x y := by
      rw [wire]
      exact lane_removed none (x, y)
    have node : net.nodes.get q.dst = some host.node := by
      rw [refines.nodes, present]
      rfl
    refine ⟨_, ⟨before', after', wire, fun r member both => none r member (by rw [both.1, both.2]), rfl⟩, ?_,
      joined.ships (l := { host.link with tx := before ++ after }) laws present rfl ships has _⟩
    rw [Network.receive, node]
    refine refines.update present _ onAir (fun r member => ?_) (fun x => ?_) fun x y away => ?_
    · exact (joined.hosts _ host _ present (places r member).2).2
    · have whole := refines.wire x q.dst host present
      rw [removed, queue] at whole
      by_cases source : q.src = x
      · rw [if_pos source, if_pos (by rw [source])] at whole
        exact (List.cons.inj whole).2
      · rwa [if_neg source, if_neg fun same => source (Prod.mk.inj same).1, List.nil_append, List.nil_append] at whole
    · rw [removed, if_neg fun same => away (Prod.mk.inj same).2.symm, List.nil_append]
  | @act addr act host out l present ships =>
    obtain ⟨has, onAir⟩ := intact host present
    rw [Stack.update, List.map_append, List.append_cancel_left_eq] at onAir
    have kept := (ships.keeps has).1
    refine ⟨_, ⟨host.node, by rw [refines.nodes, present]; rfl, rfl⟩, ?_, joined.ships laws present rfl ships has _⟩
    refine refines.update present _ onAir (fun r member => ?_) (fun x => ?_) fun x y away => rfl
    · exact (joined.hosts _ host _ present (ships.places has r member).2).2
    · rw [refines.wire x addr host present, Link.waiting, Link.waiting, kept]

/-- Whatever the hosts do, handling each sender's cells in their order: as long as no send fails and no datagram looks like
a handshake fragment, all of it is a run of the network, with the same nodes and the same notices, and its wire is what
waits and what is under way. -/
theorem stack_refines (laws : K.Lawful) (net : Network C) (s : Stack C S) (refines : Refines net s) (joined : Joined K s)
    {events : List (StackEvent C)} {t : Stack C S} (run : Run (Such Stack.Step Stack.Intact) s events t) :
    ∃ net', Run Network.Does net events net' ∧ Refines net' t := by
  have kept : ∃ net', Run Network.Does net events net' ∧ Refines net' t ∧ Joined K t := by
    induction run with
    | nil => exact ⟨net, .nil net, refines, joined⟩
    | snoc _ last ih =>
      obtain ⟨mid, before, refines, joined⟩ := ih
      obtain ⟨net', does, refines', joined'⟩ := refines.step joined laws last.1 last.2
      exact ⟨net', before.snoc does, refines', joined'⟩
  obtain ⟨net', does, refines', -⟩ := kept
  exact ⟨net', does, refines'⟩

namespace Transparent

open Nbf.Crypto.Transparent CountedNoise

/-! ## Hosts with sessions -/

def sessionLink (net : Network crates) (a : SocketAddr) : Link snow where
  localStatic := .zeros 32
  sessions := fun b => if a = b then none
    else (net.nodes.get b).map fun _ => ⟨.zeros 32, .zeros 32, 0, 0, decide (a.port < b.port), 0, 0⟩
  peerStatics := .empty
  hsInflight := .empty
  hsBuf := .empty
  recv := .idle
  tasks := .empty
  tx := []

def hosted (net : Network crates) : Stack crates snow where
  hosts := fun a => (net.nodes.get a).map fun node => ⟨node, sessionLink net a⟩
  air := []
  notices := net.notices

theorem session_of_ne {net : Network crates} {a b : SocketAddr} (ne : a ≠ b) {node : Node crates}
    (present : net.nodes.get b = some node) :
    (sessionLink net a).sessions.get b = some ⟨.zeros 32, .zeros 32, 0, 0, decide (a.port < b.port), 0, 0⟩ :=
  (if_neg ne).trans (congrArg (Option.map _) present)

theorem hosted_joined (net : Network crates)
    (ports : ∀ a b, (net.nodes.get a).isSome → (net.nodes.get b).isSome → a.port = b.port → a = b) :
    Joined counters (hosted net) where
  linked a b host peer ne here there := by
    obtain ⟨node, present, rfl⟩ := Option.map_eq_some_iff.mp here
    obtain ⟨other, present', rfl⟩ := Option.map_eq_some_iff.mp there
    have apart : a.port ≠ b.port := fun same => ne (ports a b (by rw [present]; rfl) (by rw [present']; rfl) same)
    have sides : decide (b.port < a.port) = !decide (a.port < b.port) := by
      by_cases less : a.port < b.port
      · simp [less, UInt16.le_of_lt less]
      · simp [less, UInt16.lt_of_le_of_ne (UInt16.not_lt.mp less) (Ne.symm apart)]
    have session := session_of_ne ne present'
    have session' := session_of_ne (Ne.symm ne) present
    rw [sides] at session'
    have one (side : Bool) : counters.handshake ⟨.zeros 32, .zeros 32, 0, 0, side, 0, 0⟩ =
        ((.zeros 32, .zeros 32), (0 : UInt8), (0 : UInt8)) := by cases side <;> rfl
    exact ⟨_, decide (a.port < b.port), _, _, ⟨session, session', ⟨one _, rfl⟩, ⟨one _, rfl⟩, .empty _ _⟩,
      ⟨session', session, ⟨one _, rfl⟩, ⟨one _, by rw [Bool.not_not]; rfl⟩, .empty _ _⟩⟩
  hosts a host dst here has := by
    obtain ⟨node, present, rfl⟩ := Option.map_eq_some_iff.mp here
    by_cases ne : a = dst
    · simp [sessionLink, Table.get, ne] at has
    · refine ⟨Ne.symm ne, ?_⟩
      cases present' : net.nodes.get dst with
      | none =>
        have none : (sessionLink net a).sessions.get dst = none := (if_neg ne).trans (congrArg (Option.map _) present')
        rw [none] at has
        cases has
      | some other => exact congrArg (Option.isSome ∘ Option.map _) present'
  air q member := by cases member

/-! ## Runs of such hosts, computed -/

def shipAll (addr : SocketAddr) (l : Link snow) (i : Nat) : List Effect → Option (List (Packet × List UInt8) × Link snow)
  | [] => some ([], l)
  | .sendCell dst cell :: effects => do
    let (out, l₁) ← call l i dst cell
    let (more, l') ← shipAll addr l₁ (i + 1) effects
    return (out.map (fun sent => (⟨addr, dst, cell⟩, sent.2)) ++ more, l')
  | .ensurePeerLink peer key :: effects => shipAll addr (l.setPeerStatic peer key) i effects
  | _ :: effects => shipAll addr l i effects

theorem ships_of_shipAll {addr : SocketAddr} {l l' : Link snow} {i : Nat} {effects : List Effect}
    {out : List (Packet × List UInt8)} (shipped : shipAll addr l i effects = some (out, l')) : Ships addr l effects out l' := by
  induction effects generalizing l i out with
  | nil =>
    cases shipped
    exact .done _
  | cons effect effects ih =>
    cases effect with
    | sendCell dst cell =>
      obtain ⟨⟨sent, l₁⟩, called, rest⟩ := Option.bind_eq_some_iff.mp shipped
      obtain ⟨⟨more, l₂⟩, later, same⟩ := Option.bind_eq_some_iff.mp rest
      cases same
      exact .sendCell (sends_of_call called) (ih later)
    | ensurePeerLink peer key => exact .ensurePeerLink (ih shipped)
    | resolve tx => exact .resolve (ih shipped)
    | deliver tx data => exact .deliver (ih shipped)

def reaches (l : Link snow) : Effect → Bool
  | .sendCell dst _ => (l.sessions.get dst).isSome
  | _ => true

def emit (s : Stack crates snow) (addr : SocketAddr) (node : Node crates) (l : Link snow) (i : Nat) (effects : List Effect) :
    Option (Stack crates snow) := do
  let (out, l') ← shipAll addr l i effects
  if out.map Prod.fst = packetsOf addr effects ∧ effects.all (reaches l) then return s.update addr ⟨node, l'⟩ effects out else none

theorem of_emit {s t : Stack crates snow} {addr : SocketAddr} {node : Node crates} {l : Link snow} {i : Nat} {effects : List Effect}
    (emitted : emit s addr node l i effects = some t) :
    ∃ out l', Ships addr l effects out l' ∧ t = s.update addr ⟨node, l'⟩ effects out ∧
      (∀ dst cell, .sendCell dst cell ∈ effects → (l.sessions.get dst).isSome) ∧
      t.air.map Prod.fst = s.air.map Prod.fst ++ packetsOf addr effects := by
  obtain ⟨⟨out, l'⟩, shipped, rest⟩ := Option.bind_eq_some_iff.mp emitted
  dsimp only at rest
  split at rest
  next fine =>
    obtain rfl := Option.some.inj rest
    refine ⟨out, l', ships_of_shipAll shipped, rfl, fun dst cell member => ?_, ?_⟩
    · exact List.all_eq_true.mp fine.2 _ member
    · rw [Stack.update, List.map_append, fine.1]
  next => cases rest

def nextStack (s : Stack crates snow) (i : Nat) : StackEvent crates → Option (Stack crates snow)
  | .arrive p data => do
    let q :: after := s.air | none
    let host ← s.hosts.get p.dst
    let (l, _) ← host.link.step (.receive p.src data (0 : UInt8))
    if q = (p, data) ∧ data.head? ≠ some 0x7F then return { s with hosts := s.hosts.insert p.dst ⟨host.node, l⟩, air := after } else none
  | .handle p lookup => do
    let host ← s.hosts.get p.dst
    let q :: after := host.link.tx | none
    let (node, effects) := host.node.handleCell lookup p.src p.cell
    if q = (p.src, p.cell) then emit s p.dst node { host.link with tx := after } i effects else none
  | .act addr act => do
    let host ← s.hosts.get addr
    let (node, effects) := act host.node
    emit s addr node host.link i effects

theorem step_of_nextStack {s t : Stack crates snow} {i : Nat} {event : StackEvent crates} (taken : nextStack s i event = some t) :
    Such Stack.Step Stack.Intact s event t := by
  cases event with
  | arrive p data =>
    simp only [nextStack] at taken
    split at taken
    next q after air =>
      obtain ⟨host, present, rest⟩ := Option.bind_eq_some_iff.mp taken
      obtain ⟨⟨l, sent⟩, received, done⟩ := Option.bind_eq_some_iff.mp rest
      dsimp only at done
      split at done
      next fine =>
        obtain ⟨rfl, other⟩ := fine
        obtain rfl := Option.some.inj done
        have oldest : s.air = [] ++ (p, data) :: after := air
        exact ⟨.arrive oldest (by simp) present received, other⟩
      next => cases done
    next => cases taken
  | handle p lookup =>
    obtain ⟨host, present, rest⟩ := Option.bind_eq_some_iff.mp taken
    split at rest
    next q after waits =>
      dsimp only at rest
      split at rest
      next same =>
        obtain ⟨out, l, ships, rfl, has, sent⟩ := of_emit rest
        subst same
        have longest : host.link.tx = [] ++ (p.src, p.cell) :: after := waits
        refine ⟨.handle present longest (by simp) ships, fun other there => ?_⟩
        obtain rfl := Option.some.inj (present.symm.trans there)
        exact ⟨has, sent⟩
      next => cases rest
    next => cases rest
  | act addr act =>
    obtain ⟨host, present, rest⟩ := Option.bind_eq_some_iff.mp taken
    obtain ⟨out, l, ships, rfl, has, sent⟩ := of_emit rest
    refine ⟨.act present ships, fun other there => ?_⟩
    obtain rfl := Option.some.inj (present.symm.trans there)
    exact ⟨has, sent⟩

variable {ι : Type}

def play (event : ι → StackEvent crates) (s : Stack crates snow) (i : Nat) :
    List (Stack crates snow → Option ι) → Option (List ι × Stack crates snow)
  | [] => some ([], s)
  | cue :: cues => do
    let label ← cue s
    let t ← nextStack s i (event label)
    let (labels, u) ← play event t (i + 4) cues
    return (label :: labels, u)

theorem run_of_play {event : ι → StackEvent crates} {s t : Stack crates snow} {i : Nat}
    {cues : List (Stack crates snow → Option ι)} {labels : List ι} (played : play event s i cues = some (labels, t)) :
    Run (fun s label t => Such Stack.Step Stack.Intact s (event label) t) s labels t := by
  induction cues generalizing s i labels with
  | nil =>
    cases played
    exact .nil _
  | cons cue cues ih =>
    obtain ⟨label, cued, rest⟩ := Option.bind_eq_some_iff.mp played
    obtain ⟨u, taken, rest⟩ := Option.bind_eq_some_iff.mp rest
    obtain ⟨⟨labels', t'⟩, later, same⟩ := Option.bind_eq_some_iff.mp rest
    cases same
    exact (ih later).cons (step_of_nextStack taken)

def arriving (event : Packet → List UInt8 → ι) (s : Stack crates snow) : Option ι := s.air.head?.map fun q => event q.1 q.2

def waitingAt (event : Packet → Lookup → ι) (addr : SocketAddr) (s : Stack crates snow) : Option ι := do
  let host ← s.hosts.get addr
  let q ← host.link.tx.head?
  return event ⟨q.1, addr, q.2⟩ fun _ => .error .timeout

def echoCues : List (Stack crates snow → Option (StackEvent crates)) :=
  [fun _ => some (.act (localhost 9000) fun node => ((node.echo echoHandle 7 [104, 105]).1, (node.echo echoHandle 7 [104, 105]).2.1)),
   arriving .arrive, waitingAt .handle (localhost 9100), arriving .arrive, waitingAt .handle (localhost 9101),
   arriving .arrive, waitingAt .handle (localhost 9100), arriving .arrive, waitingAt .handle (localhost 9000)]

theorem echoNet_present (a : SocketAddr) (here : ((echoNet 1).nodes.get a).isSome) :
    a = localhost 9000 ∨ a = localhost 9100 ∨ a = localhost 9101 := by
  by_contra other
  simp only [not_or] at other
  rw [echoNet, Table.get_insert_of_ne _ _ other.2.2, Table.get_insert_of_ne _ _ other.2.1, Table.get_insert_of_ne _ _ other.1] at here
  cases here

theorem echoNet_ports (a b : SocketAddr) (here : ((echoNet 1).nodes.get a).isSome) (there : ((echoNet 1).nodes.get b).isSome)
    (same : a.port = b.port) : a = b := by
  rcases echoNet_present a here with rfl | rfl | rfl <;> rcases echoNet_present b there with rfl | rfl | rfl <;>
    first | rfl | exact absurd same (by decide)

theorem hosted_above (net : Network crates) (quiet : net.wire = []) : (hosted net).above = net := by
  have nodes : (hosted net).above.nodes = net.nodes := by
    funext a
    simp only [Stack.above, hosted, Table.get]
    cases net.nodes a <;> rfl
  have whole : (hosted net).above = ⟨(hosted net).above.nodes, [], net.notices⟩ := rfl
  rw [whole, nodes, ← quiet]

theorem hosted_idle (net : Network crates) : (hosted net).Idle where
  air := rfl
  queues a host here := by
    obtain ⟨node, -, rfl⟩ := Option.map_eq_some_iff.mp here
    rfl

theorem echo_played : (play id (hosted (echoNet 1)) 0 echoCues).map (fun played => played.2.notices) =
    some [(localhost 9000, .deliver 7 [104, 105])] := by
  decide +kernel

/-- The echo over sessions is an echo of the network of the bare handlers. -/
theorem echo_refined : ∃ events t net', Run (Such Stack.Step Stack.Intact) (hosted (echoNet 1)) events t ∧
    Run Network.Does (echoNet 1) events net' ∧ Refines net' t ∧ net'.notices = [(localhost 9000, .deliver 7 [104, 105])] := by
  obtain ⟨⟨events, t⟩, played, notices⟩ := Option.map_eq_some_iff.mp echo_played
  have run : Run (Such Stack.Step Stack.Intact) (hosted (echoNet 1)) events t := run_of_play played
  have begins : Refines (echoNet 1) (hosted (echoNet 1)) := by
    have refines := (hosted_idle (echoNet 1)).refines
    rwa [hosted_above _ rfl] at refines
  obtain ⟨net', does, refines⟩ := stack_refines counters_lawful _ _ begins (hosted_joined _ echoNet_ports) run
  exact ⟨events, t, net', run, does, refines, refines.notices.trans notices⟩

end Transparent
end Nbf.Net

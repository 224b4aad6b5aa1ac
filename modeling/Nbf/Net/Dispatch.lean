import Nbf.Net.Channel

/-! Concurrent calls of `send_cell` to one address with a session.

A call encrypts under the lock of the sessions, which numbers its ciphertext, and
sends after it has released the lock. Between the two, other calls may do the same.
The network neither loses nor reorders.
-/

set_option autoImplicit false

namespace Nbf.Net

open Nbf.Library Nbf.Crypto

variable {S : Snow}

/-- A call to this address that has not encrypted its cell yet, and will find a session. -/
def SendTask.Early (dst : SocketAddr) : SendTask → Prop
  | .check addr _ => addr = dst
  | .poll addr _ => addr = dst
  | .encrypt addr _ => addr = dst
  | _ => False

variable (S) in
structure Dispatch where
  sender : Link S
  receiver : Link S
  /-- The calls that have encrypted, with their cells, oldest first. -/
  sealed : List (Nat × Cell)
  /-- The datagrams that have been sent and have not arrived, with their calls, oldest first. -/
  flying : List (Nat × List UInt8)
  arrived : Nat

variable (S) in
inductive DispatchEvent where
  | call (i : Nat) (cell : Cell)
  | step (i : Nat) (eph : S.Ephemeral)
  /-- The socket refuses a datagram. -/
  | refuse (i : Nat) (eph : S.Ephemeral) (count : Nat) (reason : String)
  | arrive (eph : S.Ephemeral)

namespace Dispatch

def start (sender receiver : Link S) : Dispatch S := { sender, receiver, sealed := [], flying := [], arrived := 0 }

def sealedBy (l l' : Link S) (i : Nat) : List (Nat × Cell) :=
  match l.tasks.get i, l'.tasks.get i with
  | some (.encrypt _ cell), some (.emit _ _) => [(i, cell)]
  | _, _ => []

inductive Step (dst src : SocketAddr) : Dispatch S → DispatchEvent S → Dispatch S → Prop where
  | call {c : Dispatch S} {i : Nat} {cell : Cell} {l : Link S} {sent : Sent} :
      c.sender.step (.sendCell i dst cell) = some (l, sent) → Step dst src c (.call i cell) { c with sender := l }
  | step {c : Dispatch S} {i : Nat} {eph : S.Ephemeral} {l : Link S} {sent : Sent} :
      c.sender.step (.step i eph) = some (l, sent) →
      Step dst src c (.step i eph) { c with
        sender := l
        sealed := c.sealed ++ sealedBy c.sender l i
        flying := c.flying ++ sent.cells.map fun out => (i, out.2) }
  | refuse {c : Dispatch S} {i : Nat} {eph : S.Ephemeral} {count : Nat} {reason : String} {l : Link S} {sent : Sent} :
      c.sender.step (.refuse i eph count reason) = some (l, sent) →
      Step dst src c (.refuse i eph count reason) { c with sender := l }
  | arrive {c : Dispatch S} {eph : S.Ephemeral} {first : Nat × List UInt8} {rest : List (Nat × List UInt8)} {r : Link S}
      {sent : Sent} : c.flying = first :: rest → c.receiver.step (.receive src first.2 eph) = some (r, sent) →
      Step dst src c (.arrive eph) { c with receiver := r, flying := rest, arrived := c.arrived + 1 }

def departed (c : Dispatch S) : Nat := c.arrived + c.flying.length

def Yields (src : SocketAddr) (c : Dispatch S) (event : DispatchEvent S) (c' : Dispatch S) : Prop :=
  match event with
  | .arrive _ => ∀ first, c.flying.head? = some first →
    ∃ cell, (first.1, cell) ∈ c.sealed ∧ c.receiver.Delivers src first.2 cell c'.receiver
  | _ => True

/-- The call that sends is the first of those that have encrypted and not sent, and its ciphertext does not begin like
a handshake fragment. -/
def InTurn (c : Dispatch S) (event : DispatchEvent S) (_ : Dispatch S) : Prop :=
  match event with
  | .step i _ => ∀ dst data, c.sender.tasks.get i = some (.emit dst data) →
    (c.sealed.map Prod.fst)[c.departed]? = some i ∧ data.head? ≠ some 0x7F
  | _ => True

/-- What has arrived is handed on in the order of encryption, and every call that returned `Ok` has sent. -/
structure Complete (src : SocketAddr) (r : Link S) (c : Dispatch S) : Prop where
  behind : c.arrived ≤ c.sealed.length
  tx : c.receiver.tx = r.tx ++ (c.sealed.take c.arrived).map fun sealed => (src, sealed.2)
  sent : ∀ n i cell, c.sealed[n]? = some (i, cell) → c.sender.tasks.get i = some (.done (.ok ())) → n < c.departed

/-! ## What a step does -/

def SealedAt (K : Counters S) (handshake : Handshake S) (initiator : Bool) (base : Nat) (c : Dispatch S) (n i : Nat)
    (data : List UInt8) : Prop :=
  ∃ cell, c.sealed[n]? = some (i, cell) ∧ Channel.Numbered K handshake initiator (base + n) (cell, data)

/-- The sessions are of one handshake. The sender's has counted what has been encrypted since it was at `base`, the
receiver's what has arrived. -/
structure Tracks (K : Counters S) (dst src : SocketAddr) (handshake : Handshake S) (initiator : Bool) (base : Nat)
    (c : Dispatch S) (t u : S.TransportState) : Prop where
  has : c.sender.sessions.get dst = some t
  has' : c.receiver.sessions.get src = some u
  sender : K.handshake t = handshake ∧ K.initiator t = initiator ∧ K.sent t = base + c.sealed.length
  receiver : K.handshake u = handshake ∧ K.initiator u = (!initiator) ∧ K.received u = base + c.arrived
  once : (c.sealed.map Prod.fst).Nodup
  known : ∀ i ∈ c.sealed.map Prod.fst, c.sender.tasks.get i ≠ none
  tasks : ∀ i task, c.sender.tasks.get i = some task → task.Early dst ∧ i ∉ c.sealed.map Prod.fst ∨
    (∃ data n, task = .emit dst data ∧ SealedAt K handshake initiator base c n i data) ∨ ∃ result, task = .done result
  flies : ∀ first ∈ c.flying, ∃ n, SealedAt K handshake initiator base c n first.1 first.2

inductive Moves (dst src : SocketAddr) (t : S.TransportState) (c : Dispatch S) : DispatchEvent S → Dispatch S → Prop where
  /-- A call begins, goes on to encrypt, or fails. -/
  | quiet {event : DispatchEvent S} {i : Nat} {task : SendTask} :
      task.Early dst ∧ i ∉ c.sealed.map Prod.fst ∨ (∃ result, task = .done result ∧ result ≠ .ok ()) →
      (∀ c', c.InTurn event c' ∧ c.Yields src event c') →
      Moves dst src t c event { c with sender := c.sender.put i task }
  | seals {i : Nat} {eph : S.Ephemeral} {cell : Cell} {buf : Octets cellLen} {data : List UInt8} {t' : S.TransportState} :
      c.sender.tasks.get i = some (.encrypt dst cell) → cell.encode = .ok buf → S.transportWrite t buf.bytes = .ok (data, t') →
      Moves dst src t c (.step i eph) { c with
        sender := { c.sender with sessions := c.sender.sessions.insert dst t' }.put i (.emit dst data)
        sealed := c.sealed ++ [(i, cell)] }
  | sends {i : Nat} {eph : S.Ephemeral} {data : List UInt8} : c.sender.tasks.get i = some (.emit dst data) →
      Moves dst src t c (.step i eph) { c with
        sender := c.sender.put i (.done (.ok ()))
        flying := c.flying ++ [(i, data)] }
  | arrives {eph : S.Ephemeral} {first : Nat × List UInt8} {rest : List (Nat × List UInt8)} : c.flying = first :: rest →
      Moves dst src t c (.arrive eph)
        { c with receiver := c.receiver.receive src first.2 eph, flying := rest, arrived := c.arrived + 1 }

variable {K : Counters S} {dst src : SocketAddr} {handshake : Handshake S} {initiator : Bool} {base : Nat}
  {c c' : Dispatch S} {t u : S.TransportState} {event : DispatchEvent S}

theorem sealedBy_put {l l' : Link S} {i : Nat} {task : SendTask} (emits : ∀ dst data, task ≠ .emit dst data) :
    sealedBy l (l'.put i task) i = [] := by
  unfold sealedBy
  split
  next _ _ _ now =>
    rw [Link.put, Table.get_insert_self, Option.some.injEq] at now
    exact absurd now (emits _ _)
  next => rfl

theorem Tracks.step_moves (tracks : Tracks K dst src handshake initiator base c t u) {i : Nat} {eph : S.Ephemeral} {l : Link S}
    {sent : Sent} (took : c.sender.step (.step i eph) = some (l, sent)) : Moves dst src t c (.step i eph) { c with
      sender := l
      sealed := c.sealed ++ sealedBy c.sender l i
      flying := c.flying ++ sent.cells.map fun out => (i, out.2) } := by
  simp only [Link.step] at took
  obtain ⟨task, here, took⟩ := Option.bind_eq_some_iff.mp took
  -- What a call that has not come to sending does is seen by nobody.
  have quiet {task' : SendTask} (before : ∀ dst data, task ≠ .emit dst data)
      (after : task'.Early dst ∧ i ∉ c.sealed.map Prod.fst ∨ ∃ result, task' = .done result ∧ result ≠ .ok ()) :
      Moves dst src t c (.step i eph) { c with
        sender := c.sender.put i task'
        sealed := c.sealed ++ sealedBy c.sender (c.sender.put i task') i
        flying := c.flying ++ List.map (fun out : SocketAddr × List UInt8 => (i, out.2)) [] } := by
    have emits : ∀ dst data, task' ≠ .emit dst data := by
      rintro addr data rfl
      rcases after with ⟨early, -⟩ | ⟨result, other, -⟩
      · exact early
      · cases other
    rw [sealedBy_put emits, List.append_nil, List.map_nil, List.append_nil]
    refine .quiet after fun _ => ⟨fun addr data now => ?_, trivial⟩
    rw [here, Option.some.injEq] at now
    exact absurd now (before addr data)
  rcases tracks.tasks i task here with ⟨early, unsealed⟩ | ⟨data, n, rfl, -⟩ | ⟨result, rfl⟩
  · cases task with
    | check addr cell =>
      obtain rfl : addr = dst := early
      simp only [Link.stepTask, tracks.has] at took
      cases took
      exact quiet (by simp) (.inl ⟨rfl, unsealed⟩)
    | poll addr cell =>
      obtain rfl : addr = dst := early
      simp only [Link.stepTask, tracks.has] at took
      cases took
      exact quiet (by simp) (.inl ⟨rfl, unsealed⟩)
    | encrypt addr cell =>
      obtain rfl : addr = dst := early
      simp only [Link.stepTask, tracks.has] at took
      cases encoded : cell.encode with
      | ok buf =>
        simp only [encoded] at took
        cases wrote : S.transportWrite t buf.bytes with
        | ok written =>
          simp only [wrote] at took
          cases took
          have sealed : sealedBy c.sender ({ c.sender with sessions := c.sender.sessions.insert addr written.2 }.put i
              (.emit addr written.1)) i = [(i, cell)] := by
            simp only [sealedBy, here, Link.put, Table.get_insert_self]
          rw [sealed, List.map_nil, List.append_nil]
          exact .seals here encoded wrote
        | error reason =>
          simp only [wrote] at took
          cases took
          exact quiet (by simp) (.inr ⟨_, rfl, by simp⟩)
      | error | panic =>
        simp only [encoded] at took
        cases took
        exact quiet (by simp) (.inr ⟨_, rfl, by simp⟩)
    | key | start | giveUp | emit | done => exact early.elim
  · simp only [Link.stepTask] at took
    cases took
    rw [sealedBy_put (by simp), List.append_nil]
    exact .sends here
  · cases took

theorem Tracks.moves (tracks : Tracks K dst src handshake initiator base c t u) (step : Step dst src c event c') :
    Moves dst src t c event c' := by
  cases step with
  | @call i cell l sent took =>
    simp only [Link.step] at took
    split at took
    next free =>
      cases took
      exact .quiet (.inl ⟨rfl, fun member => tracks.known i member free⟩) fun _ => ⟨trivial, trivial⟩
    next => cases took
  | step took => exact tracks.step_moves took
  | @refuse i eph count reason l sent took =>
    simp only [Link.step] at took
    obtain ⟨task, here, took⟩ := Option.bind_eq_some_iff.mp took
    rcases tracks.tasks i task here with ⟨early, -⟩ | ⟨data, n, rfl, -⟩ | ⟨result, rfl⟩
    · cases task with
      | start => exact early.elim
      | emit => exact early.elim
      | check | key | poll | giveUp | encrypt | done => cases took
    · simp only [Link.refuseTask] at took
      split at took
      · cases took
        exact .quiet (.inr ⟨_, rfl, by simp⟩) fun _ => ⟨trivial, trivial⟩
      · cases took
    · cases took
  | arrive flying took =>
    obtain rfl := Link.receive_of_step took
    exact .arrives flying

theorem SealedAt.call {n i : Nat} {data : List UInt8} (sealed : SealedAt K handshake initiator base c n i data) :
    (c.sealed.map Prod.fst)[n]? = some i := by
  obtain ⟨cell, here, -⟩ := sealed
  rw [List.getElem?_map, here]
  rfl

theorem SealedAt.later {n i : Nat} {data : List UInt8} (sealed : SealedAt K handshake initiator base c n i data)
    {more : List (Nat × Cell)} (grown : c'.sealed = c.sealed ++ more) : SealedAt K handshake initiator base c' n i data := by
  obtain ⟨cell, here, numbered⟩ := sealed
  obtain ⟨inside, -⟩ := List.getElem?_eq_some_iff.mp here
  exact ⟨cell, by rw [grown, List.getElem?_append_left inside, here], numbered⟩

theorem Tracks.same_place (tracks : Tracks K dst src handshake initiator base c t u) {n k i : Nat}
    (here : (c.sealed.map Prod.fst)[n]? = some i) (there : (c.sealed.map Prod.fst)[k]? = some i) : n = k := by
  obtain ⟨inside, -⟩ := List.getElem?_eq_some_iff.mp here
  exact (List.getElem?_inj inside tracks.once).mp (here.trans there.symm)

theorem Tracks.quiet (tracks : Tracks K dst src handshake initiator base c t u) {i : Nat} {task : SendTask}
    (after : task.Early dst ∧ i ∉ c.sealed.map Prod.fst ∨ ∃ result, task = .done result) :
    Tracks K dst src handshake initiator base { c with sender := c.sender.put i task } t u :=
  { tracks with
    has := tracks.has
    has' := tracks.has'
    flies := tracks.flies
    known := fun j member free => by
      by_cases same : j = i
      · rw [same, Link.put, Table.get_insert_self] at free
        cases free
      · rw [Link.put, Table.get_insert_of_ne _ _ same] at free
        exact tracks.known j member free
    tasks := fun j other here => by
      rcases Table.get_insert_some here with ⟨rfl, rfl⟩ | ⟨-, before⟩
      · rcases after with early | returned
        · exact .inl early
        · exact .inr (.inr returned)
      · exact tracks.tasks j other before }

theorem Tracks.sends (tracks : Tracks K dst src handshake initiator base c t u) {i : Nat} {data : List UInt8}
    (here : c.sender.tasks.get i = some (.emit dst data)) : Tracks K dst src handshake initiator base { c with
      sender := c.sender.put i (.done (.ok ()))
      flying := c.flying ++ [(i, data)] } t u := by
  rcases tracks.tasks i _ here with ⟨early, -⟩ | ⟨_, n, same, sealed⟩ | ⟨_, other⟩
  · exact early.elim
  · obtain ⟨-, rfl⟩ := SendTask.emit.inj same
    have returned : Tracks K dst src handshake initiator base { c with sender := c.sender.put i (.done (.ok ())) } t u :=
      tracks.quiet (.inr ⟨_, rfl⟩)
    refine { returned with has := returned.has, has' := returned.has', flies := fun first member => ?_ }
    rcases List.mem_append.mp member with before | last
    · exact tracks.flies first before
    · obtain rfl := List.mem_singleton.mp last
      exact ⟨n, sealed⟩
  · cases other

theorem Tracks.seals (tracks : Tracks K dst src handshake initiator base c t u) (laws : K.Lawful) {i : Nat} {cell : Cell}
    {buf : Octets cellLen} {data : List UInt8} {t' : S.TransportState} (here : c.sender.tasks.get i = some (.encrypt dst cell))
    (encoded : cell.encode = .ok buf) (wrote : S.transportWrite t buf.bytes = .ok (data, t')) :
    Tracks K dst src handshake initiator base { c with
      sender := { c.sender with sessions := c.sender.sessions.insert dst t' }.put i (.emit dst data)
      sealed := c.sealed ++ [(i, cell)] } t' u := by
  obtain ⟨same, side, next, -, size⟩ := laws.write t _ data t' wrote
  obtain ⟨made, side₀, count⟩ := tracks.sender
  have unsealed : i ∉ c.sealed.map Prod.fst := by
    rcases tracks.tasks i _ here with ⟨-, unsealed⟩ | ⟨_, _, other, -⟩ | ⟨_, other⟩
    · exact unsealed
    · cases other
    · cases other
  have numbered : Channel.Numbered K handshake initiator (base + c.sealed.length) (cell, data) :=
    ⟨buf, encoded, ⟨t, t', made, side₀, count, wrote⟩, by rw [size, buf.size]⟩
  have last : (c.sealed ++ [(i, cell)])[c.sealed.length]? = some (i, cell) := List.getElem?_concat_length
  exact {
    has := Table.get_insert_self ..
    has' := tracks.has'
    sender := ⟨same.trans made, side.trans side₀, by rw [next, count, List.length_append, List.length_singleton, Nat.add_assoc]⟩
    receiver := tracks.receiver
    once := by
      rw [List.map_append, List.map_singleton]
      refine List.nodup_append.mpr ⟨tracks.once, List.pairwise_singleton _ _, fun j member k only same => unsealed ?_⟩
      rw [same, List.mem_singleton.mp only] at member
      exact member
    known := fun j member free => by
      by_cases own : j = i
      · rw [own, Link.put, Table.get_insert_self] at free
        cases free
      · rw [Link.put, Table.get_insert_of_ne _ _ own] at free
        rw [List.map_append, List.mem_append] at member
        rcases member with before | only
        · exact tracks.known j before free
        · exact own (List.mem_singleton.mp only)
    tasks := fun j task now => by
      rcases Table.get_insert_some now with ⟨rfl, rfl⟩ | ⟨apart, before⟩
      · exact .inr (.inl ⟨data, c.sealed.length, rfl, cell, last, numbered⟩)
      · rcases tracks.tasks j task before with ⟨early, fresh⟩ | ⟨old, n, emits, sealed⟩ | returned
        · refine .inl ⟨early, fun member => ?_⟩
          rw [List.map_append, List.mem_append] at member
          rcases member with old | only
          · exact fresh old
          · exact apart (List.mem_singleton.mp only)
        · exact .inr (.inl ⟨old, n, emits, sealed.later rfl⟩)
        · exact .inr (.inr returned)
    flies := fun first member => by
      obtain ⟨n, sealed⟩ := tracks.flies first member
      exact ⟨n, sealed.later rfl⟩ }

/-- The datagram that is next by number is decrypted, unless it begins like a handshake fragment. -/
theorem Tracks.arrives (tracks : Tracks K dst src handshake initiator base c t u) (laws : K.Lawful) {first : Nat × List UInt8}
    {rest : List (Nat × List UInt8)} (flying : c.flying = first :: rest) (eph : S.Ephemeral)
    (place : (c.sealed.map Prod.fst)[c.arrived]? = some first.1) (other : first.2.head? ≠ some 0x7F) :
    ∃ cell u', c.sealed[c.arrived]? = some (first.1, cell) ∧
      c.receiver.Delivers src first.2 cell (c.receiver.receive src first.2 eph) ∧
      Tracks K dst src handshake initiator base
        { c with receiver := c.receiver.receive src first.2 eph, flying := rest, arrived := c.arrived + 1 } t u' := by
  obtain ⟨n, sealed⟩ := tracks.flies first (flying ▸ List.mem_cons_self)
  obtain rfl := tracks.same_place sealed.call place
  obtain ⟨cell, here, numbered⟩ := sealed
  obtain ⟨made, side, count⟩ := tracks.receiver
  obtain ⟨buf, u', encoded, read, taken, after, now, received, -⟩ := numbered.read laws tracks.has' ⟨made, side⟩ count other eph
  rw [taken, after]
  refine ⟨cell, u', here, ⟨rfl, rfl, u, _, u', tracks.has', read, Cell.decode_encode encoded, Table.get_insert_self ..⟩, ?_⟩
  exact { tracks with
    has := tracks.has
    has' := Table.get_insert_self ..
    receiver := ⟨now.1, now.2, received⟩
    flies := fun later member => tracks.flies later (flying ▸ List.mem_cons_of_mem _ member) }

theorem Tracks.place_of_delivers (tracks : Tracks K dst src handshake initiator base c t u) (laws : K.Lawful)
    {first : Nat × List UInt8} (member : first ∈ c.flying) {eph : S.Ephemeral} {cell : Cell}
    (delivers : c.receiver.Delivers src first.2 cell (c.receiver.receive src first.2 eph)) :
    (c.sealed.map Prod.fst)[c.arrived]? = some first.1 ∧ first.2.head? ≠ some 0x7F := by
  obtain ⟨n, sealed⟩ := tracks.flies first member
  have call := sealed.call
  obtain ⟨_, -, buf, -, written, size⟩ := sealed
  obtain ⟨made, side₀, count⟩ := tracks.receiver
  constructor
  · obtain ⟨u₀, plain, u', has, read, -⟩ := delivers.decrypted
    obtain rfl := Option.some.inj (tracks.has'.symm.trans has)
    rw [← made] at written
    have number := laws.expects u _ _ _ _ _ _ written side₀ read
    rwa [show n = c.arrived by omega] at call
  · intro fragment
    have kind := (c.receiver.receive_ciphertext src eph size).1
    have none := Link.receive_fragment_tx c.receiver src eph (kind.trans (decide_eq_true fragment))
    rw [delivers.tx] at none
    exact absurd (congrArg List.length none) (by simp)

theorem Tracks.step (tracks : Tracks K dst src handshake initiator base c t u) (laws : K.Lawful)
    (step : Step dst src c event c') (yields : Yields src c event c') :
    ∃ t' u', Tracks K dst src handshake initiator base c' t' u' := by
  cases tracks.moves step with
  | quiet after _ => exact ⟨t, u, tracks.quiet (after.imp_right fun ⟨result, returned, _⟩ => ⟨result, returned⟩)⟩
  | seals here encoded wrote => exact ⟨_, u, tracks.seals laws here encoded wrote⟩
  | sends here => exact ⟨t, u, tracks.sends here⟩
  | arrives flying =>
    obtain ⟨cell, -, delivers⟩ := yields _ (by rw [flying, List.head?_cons])
    obtain ⟨place, other⟩ := tracks.place_of_delivers laws (flying ▸ List.mem_cons_self) delivers
    obtain ⟨_, u', -, -, after⟩ := tracks.arrives laws flying _ place other
    exact ⟨t, u', after⟩

/-! ## The order on the wire -/

/-- What has been sent and has not arrived comes next by number, in its order, and nothing of it begins like a handshake
fragment. -/
def Straight (c : Dispatch S) : Prop :=
  ∀ j first, c.flying[j]? = some first → (c.sealed.map Prod.fst)[c.arrived + j]? = some first.1 ∧ first.2.head? ≠ some 0x7F

theorem Tracks.yields (tracks : Tracks K dst src handshake initiator base c t u) (laws : K.Lawful)
    (step : Step dst src c event c') (straight : c.Straight) : Yields src c event c' := by
  cases tracks.moves step with
  | quiet _ free => exact (free _).2
  | seals => trivial
  | sends => trivial
  | arrives flying =>
    intro first here
    rw [flying, List.head?_cons] at here
    obtain rfl := Option.some.inj here
    obtain ⟨place, other⟩ := straight 0 _ (by rw [flying]; rfl)
    obtain ⟨cell, _, sealed, delivers, -⟩ := tracks.arrives laws flying _ place other
    exact ⟨cell, List.mem_of_getElem? sealed, delivers⟩

theorem Tracks.straight (tracks : Tracks K dst src handshake initiator base c t u) (step : Step dst src c event c')
    (straight : c.Straight) (inTurn : InTurn c event c') : c'.Straight := by
  cases tracks.moves step with
  | quiet => exact straight
  | seals =>
    intro j first flying
    obtain ⟨place, other⟩ := straight j first flying
    obtain ⟨inside, -⟩ := List.getElem?_eq_some_iff.mp place
    refine ⟨?_, other⟩
    rw [List.map_append, List.getElem?_append_left inside, place]
  | sends here =>
    intro j first flying
    rcases getElem?_snoc flying with before | ⟨rfl, rfl⟩
    · exact straight j first before
    · exact inTurn _ _ here
  | arrives flying =>
    intro j later there
    have moved := straight (j + 1) later (by rw [flying, List.getElem?_cons_succ]; exact there)
    rwa [show c.arrived + (j + 1) = c.arrived + 1 + j by omega] at moved

/-- If the order is kept after a step, it was kept before, and the call that sent was the one whose turn it was. -/
theorem Tracks.straight_before (tracks : Tracks K dst src handshake initiator base c t u) (laws : K.Lawful)
    (step : Step dst src c event c') (yields : Yields src c event c') (straight : c'.Straight) :
    c.Straight ∧ InTurn c event c' := by
  cases tracks.moves step with
  | quiet _ free => exact ⟨straight, (free _).1⟩
  | seals here encoded wrote =>
    refine ⟨fun j first flying => ?_, fun addr data emits => ?_⟩
    · -- What flies has been encrypted before.
      obtain ⟨place, other⟩ := straight j first flying
      obtain ⟨n, sealed⟩ := tracks.flies first (List.mem_of_getElem? flying)
      have after := tracks.seals laws here encoded wrote
      obtain rfl := after.same_place (sealed.later rfl).call place
      exact ⟨sealed.call, other⟩
    · rw [here] at emits
      cases emits
  | @sends i _ data here =>
    refine ⟨fun j first flying => ?_, fun addr other emits => ?_⟩
    · have inside := (List.getElem?_eq_some_iff.mp flying).1
      exact straight j first (by rw [List.getElem?_append_left inside, flying])
    · rw [here] at emits
      cases emits
      exact straight c.flying.length (i, data) List.getElem?_concat_length
  | @arrives _ first rest flying =>
    refine ⟨fun j later there => ?_, trivial⟩
    rw [flying] at there
    cases j with
    | zero =>
      obtain rfl := Option.some.inj there
      obtain ⟨cell, -, delivers⟩ := yields first (by rw [flying, List.head?_cons])
      exact tracks.place_of_delivers laws (flying ▸ List.mem_cons_self) delivers
    | succ j =>
      have moved := straight j later there
      rwa [show c.arrived + 1 + j = c.arrived + (j + 1) by omega] at moved

theorem Tracks.complete (tracks : Tracks K dst src handshake initiator base c t u) (laws : K.Lawful)
    (step : Step dst src c event c') (straight : c.Straight) (inTurn : InTurn c event c') {r : Link S}
    (complete : Complete src r c) : Complete src r c' := by
  cases tracks.moves step with
  | @quiet _ i task after _ =>
    refine { complete with tx := complete.tx, behind := complete.behind, sent := fun n j cell here returned => ?_ }
    rcases Table.get_insert_some returned with ⟨rfl, rfl⟩ | ⟨-, before⟩
    · rcases after with ⟨early, -⟩ | ⟨result, same, other⟩
      · exact early.elim
      · exact absurd (SendTask.done.inj same).symm other
    · exact complete.sent n j cell here before
  | @seals i _ cell _ data _ here =>
    have same : (c.sealed ++ [(i, cell)]).take c.arrived = c.sealed.take c.arrived :=
      List.take_append_of_le_length complete.behind
    have tx := complete.tx
    rw [← same] at tx
    have longer : c.sealed.length ≤ (c.sealed ++ [(i, cell)]).length := (List.sublist_append_left ..).length_le
    refine { tx, behind := Nat.le_trans complete.behind longer, sent := fun n j sealed place returned => ?_ }
    rcases Table.get_insert_some returned with ⟨-, other⟩ | ⟨apart, before⟩
    · cases other
    · rcases getElem?_snoc place with old | ⟨-, same⟩
      · exact complete.sent n j sealed old before
      · exact absurd (congrArg Prod.fst same) apart
  | @sends i _ data here =>
    refine { complete with tx := complete.tx, behind := complete.behind, sent := fun n j cell place returned => ?_ }
    have more : departed { c with sender := c.sender.put i (.done (.ok ())), flying := c.flying ++ [(i, data)] } =
        c.departed + 1 := by
      rw [departed, departed, List.length_append, List.length_singleton, Nat.add_assoc]
    rw [more]
    rcases Table.get_insert_some returned with ⟨rfl, -⟩ | ⟨-, before⟩
    · have call : (c.sealed.map Prod.fst)[n]? = some j := by
        rw [List.getElem?_map, place]
        rfl
      obtain rfl := tracks.same_place call (inTurn _ _ here).1
      exact Nat.lt_succ_self _
    · exact Nat.lt_succ_of_lt (complete.sent n j cell place before)
  | @arrives _ first rest flying =>
    obtain ⟨place, other⟩ := straight 0 first (by rw [flying]; rfl)
    obtain ⟨cell, _, sealed, delivers, -⟩ := tracks.arrives laws flying _ place other
    obtain ⟨inside, -⟩ := List.getElem?_eq_some_iff.mp sealed
    refine { tx := ?_, behind := inside, sent := fun n j cell place returned => ?_ }
    · rw [delivers.tx, complete.tx, List.take_add_one, sealed, List.map_append, List.append_assoc]
      rfl
    · have before := complete.sent n j cell place returned
      rw [departed, flying, List.length_cons] at before
      simp only [departed]
      omega

/-! ## Any schedule -/

theorem Tracks.start {l r : Link S} {t u : S.TransportState} (has : l.sessions.get dst = some t)
    (has' : r.sessions.get src = some u) (matching : K.Matching t u)
    (calls : ∀ i task, l.tasks.get i = some task → task.Early dst ∨ ∃ result, task = .done result) :
    Tracks K dst src (K.handshake t) (K.initiator t) (K.sent t) (start l r) t u where
  has := has
  has' := has'
  sender := ⟨rfl, rfl, rfl⟩
  receiver := ⟨matching.handshake, matching.initiator, matching.counter⟩
  once := List.nodup_nil
  known := by simp [Dispatch.start]
  tasks i task here := by
    rcases calls i task here with early | returned
    · exact .inl ⟨early, List.not_mem_nil⟩
    · exact .inr (.inr returned)
  flies := by simp [Dispatch.start]

theorem Straight.start (l r : Link S) : (start l r).Straight := fun j first flying => by simp [Dispatch.start] at flying

theorem Complete.start (l r : Link S) : Complete src r (start l r) where
  behind := Nat.le_refl 0
  tx := (List.append_nil r.tx).symm
  sent n i cell sealed := by simp [Dispatch.start] at sealed

theorem Tracks.run_in_turn {d : Dispatch S} {events : List (DispatchEvent S)} {r : Link S} (laws : K.Lawful)
    (tracks : Tracks K dst src handshake initiator base d t u) (straight : d.Straight) (complete : Complete src r d)
    (run : Run (Such (Step dst src) InTurn) d events c) : (∃ t' u', Tracks K dst src handshake initiator base c t' u') ∧
      c.Straight ∧ Complete src r c ∧ Run (Such (Step dst src) (Yields src)) d events c := by
  induction run with
  | nil => exact ⟨⟨t, u, tracks⟩, straight, complete, .nil _⟩
  | snoc _ last ih =>
    obtain ⟨⟨t', u', now⟩, ordered, handed, yielding⟩ := ih
    obtain ⟨step, inTurn⟩ := last
    have yields := now.yields laws step ordered
    exact ⟨now.step laws step yields, now.straight step ordered inTurn, now.complete laws step ordered inTurn handed,
      .snoc yielding ⟨step, yields⟩⟩

theorem Tracks.run_yields {d : Dispatch S} {events : List (DispatchEvent S)} (laws : K.Lawful)
    (tracks : Tracks K dst src handshake initiator base d t u) (run : Run (Such (Step dst src) (Yields src)) d events c) :
    (∃ t' u', Tracks K dst src handshake initiator base c t' u') ∧
      (c.Straight → Run (Such (Step dst src) InTurn) d events c) := by
  induction run with
  | nil => exact ⟨⟨t, u, tracks⟩, fun _ => .nil _⟩
  | snoc _ last ih =>
    obtain ⟨⟨t', u', now⟩, before⟩ := ih
    obtain ⟨step, yields⟩ := last
    refine ⟨now.step laws step yields, fun straight => ?_⟩
    obtain ⟨ordered, inTurn⟩ := now.straight_before laws step yields straight
    exact .snoc (before ordered) ⟨step, inTurn⟩

/-- Any number of calls of `send_cell` to an address with a session, in any order of their steps, and a network that
neither loses nor reorders. If every call sends in its turn, every datagram that arrives is decrypted and hands on its
cell, in the order of encryption, and no cell of a call that returned `Ok` is missing. Where all that was sent has
arrived, nothing else leads to that. -/
theorem yields_iff_in_turn (laws : K.Lawful) (l r : Link S) (dst src : SocketAddr) (t u : S.TransportState)
    (has : l.sessions.get dst = some t) (has' : r.sessions.get src = some u) (matching : K.Matching t u)
    (calls : ∀ i task, l.tasks.get i = some task → task.Early dst ∨ ∃ result, task = .done result)
    (events : List (DispatchEvent S)) (c : Dispatch S) :
    (Run (Such (Step dst src) InTurn) (start l r) events c →
      Run (Such (Step dst src) (Yields src)) (start l r) events c ∧ Complete src r c) ∧
    (c.flying = [] → Run (Such (Step dst src) (Yields src)) (start l r) events c →
      Run (Such (Step dst src) InTurn) (start l r) events c) := by
  have tracks := Tracks.start has has' matching calls
  constructor
  · intro run
    obtain ⟨-, -, handed, yielding⟩ := tracks.run_in_turn laws (.start l r) (.start l r) run
    exact ⟨yielding, handed⟩
  · intro landed run
    have straight : c.Straight := fun j first flying => by simp [landed] at flying
    exact (tracks.run_yields laws run).2 straight

end Dispatch

namespace Link

/-! ## Calls apart -/

def callOf : LinkEvent S → Option Nat
  | .sendCell i _ _ => some i
  | .step i _ => some i
  | .refuse i _ _ _ => some i
  | .deadline i => some i
  | _ => none

theorem put_tasks (l : Link S) {i j : Nat} (task : SendTask) (apart : i ≠ j) : (l.put j task).tasks.get i = l.tasks.get i :=
  Table.get_insert_of_ne _ _ apart

theorem receive_tasks (l : Link S) (src : SocketAddr) (datagram : List UInt8) (eph : S.Ephemeral) :
    (l.receive src datagram eph).tasks = l.tasks := by
  have handled (l' : Link S) (msg : List UInt8) : (l'.handleHs src msg eph).tasks = l'.tasks := by
    unfold handleHs
    dsimp only
    split <;> rfl
  have taken (data : List UInt8) : (l.takeFragment src data).2.tasks = l.tasks := by
    unfold takeFragment gatherHs
    dsimp only
    split <;> rfl
  have cell (data : List UInt8) : (l.receiveCell src data).tasks = l.tasks := by
    obtain ⟨tx, same | ⟨_, _, _, -, -, same⟩⟩ := l.receiveCell_cases src data
    · rw [same]
    · rw [same]
  unfold receive
  dsimp only
  split
  · split
    next full _ same =>
      rw [handled]
      exact (congrArg (fun taken => taken.2.tasks) same).symm.trans (taken _)
    next _ same => exact (congrArg (fun taken => taken.2.tasks) same).symm.trans (taken _)
  · split
    · rfl
    · exact cell _

theorem step_tasks {l l' : Link S} {event : LinkEvent S} {sent : Sent} (took : l.step event = some (l', sent)) {i : Nat}
    (apart : callOf event ≠ some i) : l'.tasks.get i = l.tasks.get i := by
  have other {j : Nat} (own : some j ≠ some i) : i ≠ j := fun same => own (congrArg some same.symm)
  cases event with
  | sendCell j addr cell =>
    simp only [step] at took
    split at took
    · cases took
      exact l.put_tasks _ (other apart)
    · cases took
  | setPeerStatic addr key =>
    cases took
    rfl
  | step j eph =>
    obtain ⟨task, -, took⟩ := Option.bind_eq_some_iff.mp took
    have away := other apart
    cases task with
    | check | poll | key =>
      simp only [stepTask] at took
      split at took <;> cases took
      all_goals first | exact l.put_tasks _ away | rfl
    | start addr cell pubk =>
      simp only [stepTask] at took
      split at took
      · cases took
        exact l.put_tasks _ away
      · split at took <;> cases took
        · exact l.put_tasks _ away
        · exact put_tasks _ _ away
    | encrypt addr cell =>
      simp only [stepTask] at took
      split at took
      · cases took
        exact l.put_tasks _ away
      · split at took
        · split at took <;> cases took
          · exact put_tasks _ _ away
          · exact l.put_tasks _ away
        all_goals
          cases took
          exact l.put_tasks _ away
    | giveUp | emit =>
      cases took
      exact put_tasks _ _ away
    | done => cases took
  | refuse j eph count reason =>
    obtain ⟨task, -, took⟩ := Option.bind_eq_some_iff.mp took
    have away := other apart
    cases task with
    | start addr cell pubk =>
      simp only [refuseTask] at took
      split at took
      · split at took <;> cases took
        exact l.put_tasks _ away
      · cases took
    | emit addr data =>
      simp only [refuseTask] at took
      split at took <;> cases took
      exact l.put_tasks _ away
    | check | key | poll | giveUp | encrypt | done => cases took
  | deadline j =>
    simp only [step] at took
    split at took
    · split at took <;> cases took
      exact l.put_tasks _ (other apart)
    · cases took
  | receive src data eph =>
    rw [← receive_of_step took, receive_tasks]
  | handle =>
    simp only [step, stepRecv] at took
    split at took
    · cases took
    · cases took
      rfl
    · split at took <;> cases took <;> rfl
    · split at took <;> cases took <;> rfl

end Link

theorem Pair.tasks_of_run [DecidableEq S.Ephemeral] {peers : Peers} {events : List (PairEvent S)} {p : Pair S}
    (run : Run (Pair.Step peers) (Pair.start S peers) events p) {i : Nat}
    (apart : ∀ x event, .act x event ∈ events → Link.callOf event ≠ some i) (x : Bool) : (p.link x).tasks.get i = none := by
  have update {link : Bool → Link S} {y : Bool} {l : Link S} (before : ∀ x, (link x).tasks.get i = none)
      (now : l.tasks.get i = (link y).tasks.get i) (x : Bool) : (Function.update link y l x).tasks.get i = none := by
    by_cases same : x = y
    · rw [same, Function.update_self, now, before]
    · rw [Function.update_of_ne same, before]
  induction run generalizing x with
  | nil => rfl
  | @snoc q p events event _ last ih =>
    have before (x : Bool) := ih (fun y event member => apart y event (List.mem_append_left _ member)) x
    cases event with
    | act y event =>
      simp only [Pair.Step, Pair.step] at last
      split at last
      · obtain ⟨⟨l, sent⟩, took, rfl⟩ := Option.map_eq_some_iff.mp last
        exact update before (Link.step_tasks took (apart y event (by simp))) x
      · cases last
    | deliver y datagram eph =>
      simp only [Pair.Step, Pair.step] at last
      split at last
      · obtain ⟨⟨l, sent⟩, took, rfl⟩ := Option.map_eq_some_iff.mp last
        exact update before (Link.step_tasks took (by simp [Link.callOf])) x
      · cases last
    | other y datagram eph =>
      simp only [Pair.Step, Pair.step] at last
      split at last
      · cases last
      · obtain ⟨⟨l, sent⟩, took, rfl⟩ := Option.map_eq_some_iff.mp last
        exact update before (Link.step_tasks took (by simp [Link.callOf])) x

namespace CountedNoise

def dispatch (c : Dispatch snow) : DispatchEvent snow → Option (Dispatch snow)
  | .call i cell => do
    let (l, _) ← c.sender.step (.sendCell i (peers.addr true) cell)
    return { c with sender := l }
  | .step i eph => do
    let (l, sent) ← c.sender.step (.step i eph)
    return { c with
      sender := l
      sealed := c.sealed ++ Dispatch.sealedBy c.sender l i
      flying := c.flying ++ sent.cells.map fun out => (i, out.2) }
  | .refuse i eph count reason => do
    let (l, _) ← c.sender.step (.refuse i eph count reason)
    return { c with sender := l }
  | .arrive eph => do
    let first :: rest := c.flying | none
    let (r, _) ← c.receiver.step (.receive (peers.addr false) first.2 eph)
    return { c with receiver := r, flying := rest, arrived := c.arrived + 1 }

theorem step_of_dispatch {c c' : Dispatch snow} {event : DispatchEvent snow} (made : dispatch c event = some c') :
    Dispatch.Step (peers.addr true) (peers.addr false) c event c' := by
  cases event with
  | call i cell =>
    obtain ⟨⟨l, sent⟩, took, same⟩ := Option.bind_eq_some_iff.mp made
    cases same
    exact .call took
  | step i eph =>
    obtain ⟨⟨l, sent⟩, took, same⟩ := Option.bind_eq_some_iff.mp made
    cases same
    exact .step took
  | refuse i eph count reason =>
    obtain ⟨⟨l, sent⟩, took, same⟩ := Option.bind_eq_some_iff.mp made
    cases same
    exact .refuse took
  | arrive eph =>
    simp only [dispatch] at made
    split at made
    next first rest flying =>
      obtain ⟨⟨r, sent⟩, took, same⟩ := Option.bind_eq_some_iff.mp made
      cases same
      exact .arrive flying took
    next => cases made

def dispatchInTurn (c : Dispatch snow) : DispatchEvent snow → Option (Dispatch snow)
  | .step i eph =>
    match c.sender.tasks.get i with
    | some (.emit _ data) =>
      if (c.sealed.map Prod.fst)[c.departed]? = some i ∧ data.head? ≠ some 0x7F then dispatch c (.step i eph) else none
    | _ => dispatch c (.step i eph)
  | event => dispatch c event

theorem step_of_dispatchInTurn {c c' : Dispatch snow} {event : DispatchEvent snow} (made : dispatchInTurn c event = some c') :
    Such (Dispatch.Step (peers.addr true) (peers.addr false)) Dispatch.InTurn c event c' := by
  cases event with
  | step i eph =>
    simp only [dispatchInTurn] at made
    split at made
    next dst data here =>
      split at made
      next inTurn =>
        refine ⟨step_of_dispatch made, fun addr other emits => ?_⟩
        rw [here] at emits
        cases emits
        exact inTurn
      next => cases made
    next other => exact ⟨step_of_dispatch made, fun addr data emits => absurd emits (other addr data)⟩
  | call | refuse | arrive => exact ⟨step_of_dispatch made, trivial⟩

def bothSealed : List (DispatchEvent snow) :=
  [.call 1 (letter 6), .step 1 (0 : UInt8), .step 0 (0 : UInt8), .step 1 (0 : UInt8)]

def inTurn : List (DispatchEvent snow) :=
  bothSealed ++ [.step 0 (0 : UInt8), .step 1 (0 : UInt8), .arrive (24 : UInt8), .arrive (25 : UInt8)]

def overtaken : List (DispatchEvent snow) :=
  bothSealed ++ [.step 1 (0 : UInt8), .step 0 (0 : UInt8), .arrive (24 : UInt8), .arrive (25 : UInt8)]

structure Outcome where
  matching : Bool
  early : Bool
  tx : List (SocketAddr × Cell)
  sealed : List (Nat × Cell)
  flying : List Nat
  arrived : Nat
  returned : Bool
  handed : List (SocketAddr × Cell)
  deriving DecidableEq

def outcome (p : Pair snow) (c : Dispatch snow) : Outcome where
  matching := matching? p
  early := (p.link false).tasks.get 0 = some (.encrypt (peers.addr true) (letter 5))
  tx := (p.link true).tx
  sealed := c.sealed
  flying := c.flying.map Prod.fst
  arrived := c.arrived
  returned := c.sender.tasks.get 0 = some (.done (.ok ())) ∧ c.sender.tasks.get 1 = some (.done (.ok ()))
  handed := c.receiver.tx

theorem meeting_calls {p : Pair snow} (run : Run (Pair.Step peers) (Pair.start snow peers) (meeting (letter 5)) p)
    (first : (p.link false).tasks.get 0 = some (.encrypt (peers.addr true) (letter 5))) (i : Nat) (task : SendTask)
    (here : (p.link false).tasks.get i = some task) : task.Early (peers.addr true) ∨ ∃ result, task = .done result := by
  by_cases own : i = 0
  · rw [own, first, Option.some.injEq] at here
    exact .inl (here ▸ rfl)
  · have none := Pair.tasks_of_run run (i := i) (by simp [meeting, Link.callOf, Ne.symm own]) false
    rw [none] at here
    cases here

theorem calls_in_turn : ∃ p c, Run (Pair.Step peers) (Pair.start snow peers) (meeting (letter 5)) p ∧
    Run (Such (Dispatch.Step (peers.addr true) (peers.addr false)) (Dispatch.Yields (peers.addr false)))
      (.start (p.link false) (p.link true)) inTurn c ∧
    c.receiver.tx = [(peers.addr false, letter 5), (peers.addr false, letter 6)] := by
  have computed : ((meeting (letter 5)).foldlM (Pair.step peers) (Pair.start snow peers)).bind (fun p =>
      (inTurn.foldlM dispatchInTurn (.start (p.link false) (p.link true))).map (outcome p)) =
      some ⟨true, true, [], [(0, letter 5), (1, letter 6)], [], 2, true,
        [(peers.addr false, letter 5), (peers.addr false, letter 6)]⟩ := by
    decide +kernel
  obtain ⟨p, run, shown⟩ := met computed
  obtain ⟨c, done, seen⟩ := Option.map_eq_some_iff.mp shown
  simp only [outcome, Outcome.mk.injEq, decide_eq_true_eq] at seen
  obtain ⟨same, first, -, -, -, -, -, handed⟩ := seen
  obtain ⟨t, u, has, has', matching⟩ := matching_some same
  refine ⟨p, c, run, ?_, handed⟩
  exact ((Dispatch.yields_iff_in_turn counters_lawful _ _ _ _ t u has has' matching (meeting_calls run first) inTurn c).1
    ((Run.of_foldlM done).mono fun _ _ _ => step_of_dispatchInTurn)).1

/-- Both calls return `Ok`, both datagrams arrive, and the cell of the second call is lost. -/
theorem overtaken_call_lost : ∃ p t u c, Run (Pair.Step peers) (Pair.start snow peers) (meeting (letter 5)) p ∧
    (p.link false).sessions.get (peers.addr true) = some t ∧ (p.link true).sessions.get (peers.addr false) = some u ∧
    counters.Matching t u ∧
    Run (Dispatch.Step (peers.addr true) (peers.addr false)) (.start (p.link false) (p.link true)) overtaken c ∧
    c.flying = [] ∧ c.sender.tasks.get 0 = some (.done (.ok ())) ∧ c.sender.tasks.get 1 = some (.done (.ok ())) ∧
    c.receiver.tx = [(peers.addr false, letter 5)] ∧
    ¬ Run (Such (Dispatch.Step (peers.addr true) (peers.addr false)) (Dispatch.Yields (peers.addr false)))
      (.start (p.link false) (p.link true)) overtaken c := by
  have computed : ((meeting (letter 5)).foldlM (Pair.step peers) (Pair.start snow peers)).bind (fun p =>
      (overtaken.foldlM dispatch (.start (p.link false) (p.link true))).map (outcome p)) =
      some ⟨true, true, [], [(0, letter 5), (1, letter 6)], [], 2, true, [(peers.addr false, letter 5)]⟩ := by
    decide +kernel
  obtain ⟨p, run, shown⟩ := met computed
  obtain ⟨c, done, seen⟩ := Option.map_eq_some_iff.mp shown
  simp only [outcome, Outcome.mk.injEq, decide_eq_true_eq] at seen
  obtain ⟨same, first, nothing, sealed, landed, arrived, ⟨one, two⟩, handed⟩ := seen
  obtain ⟨t, u, has, has', matching⟩ := matching_some same
  refine ⟨p, t, u, c, run, has, has', matching, (Run.of_foldlM done).mono fun _ _ _ => step_of_dispatch,
    List.map_eq_nil_iff.mp landed, one, two, handed, fun yields => ?_⟩
  -- If both had been decrypted, both cells would have been handed on.
  have tracks := Dispatch.Tracks.start has has' matching (meeting_calls run first)
  have straight : c.Straight := fun j first flying => by simp [List.map_eq_nil_iff.mp landed] at flying
  have inTurn := (tracks.run_yields counters_lawful yields).2 straight
  obtain ⟨-, -, complete, -⟩ := tracks.run_in_turn counters_lawful (.start _ _) (.start _ _) inTurn
  have both := complete.tx
  rw [handed, nothing, sealed, arrived] at both
  cases both

end CountedNoise
end Nbf.Net

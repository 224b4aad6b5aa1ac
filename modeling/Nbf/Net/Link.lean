import Nbf.Library.Run
import Nbf.Net.Cell
import Nbf.Net.Snow

/-! The Noise link (`link.rs`).

The receive task handles one datagram after the other; `send_cell` runs in as
many tasks as call it. A step is what one of them does under one lock, or up to
its next await; what it sends is the result of the step. The receive task is
inside `handle_hs` while `recv` is not `idle`.
-/

set_option autoImplicit false

namespace Nbf.Net

open Nbf.Library Nbf.Crypto

def hsMtu : Nat := 1200
def hsDgram : Nat := 2048

variable (S : Snow)

/-- Where the receive task stands after it has read a first message. -/
inductive Recv where
  | idle
  | reply (src : SocketAddr) (st : S.HandshakeState) (msg : List UInt8)
  | learn (src : SocketAddr) (st : S.HandshakeState)
  | store (src : SocketAddr) (st : S.HandshakeState)

inductive SendTask where
  | check (addr : SocketAddr) (cell : Cell)
  | key (addr : SocketAddr) (cell : Cell)
  | start (addr : SocketAddr) (cell : Cell) (pubk : Octets 32)
  | poll (addr : SocketAddr) (cell : Cell)
  | giveUp (addr : SocketAddr)
  | encrypt (addr : SocketAddr) (cell : Cell)
  | emit (addr : SocketAddr) (data : List UInt8)
  | done (result : Checked NetError Unit)
  deriving DecidableEq

structure Link where
  localStatic : Octets 32
  sessions : Table SocketAddr S.TransportState
  peerStatics : Table SocketAddr (Octets 32)
  hsInflight : Table SocketAddr S.HandshakeState
  /-- Fragments by address: the count the first one gave, and the chunks by index. -/
  hsBuf : Table SocketAddr (UInt16 × List (UInt16 × List UInt8))
  recv : Recv S
  tasks : Table Nat SendTask
  /-- The cells handed to the node. -/
  tx : List (SocketAddr × Cell)

inductive LinkEvent where
  | sendCell (i : Nat) (addr : SocketAddr) (cell : Cell)
  | setPeerStatic (addr : SocketAddr) (key : Octets 32)
  | step (i : Nat) (eph : S.Ephemeral)
  /-- The socket refuses a datagram, after `count` of this step. -/
  | refuse (i : Nat) (eph : S.Ephemeral) (count : Nat) (reason : String)
  | deadline (i : Nat)
  | receive (src : SocketAddr) (data : List UInt8) (eph : S.Ephemeral)
  | handle

/-- What a step sends: handshake datagrams and encrypted cells, by address. -/
structure Sent where
  hs : List (SocketAddr × List UInt8) := []
  cells : List (SocketAddr × List UInt8) := []

/-- The datagrams of `send_hs_fragmented`: `[0x7F][count][index][chunk]`. -/
def hsFragments (data : List UInt8) : List (List UInt8) :=
  let chunk := hsMtu - 5
  let cnt := max ((data.length + chunk - 1) / chunk) 1
  (List.range cnt).map fun i =>
    0x7F :: (u16Le (UInt16.ofNat cnt) ++ (u16Le (UInt16.ofNat i) ++ (data.drop (i * chunk)).take chunk))

def hsSingle (msg : List UInt8) : List UInt8 := 0x7F :: (u16Le 1 ++ (u16Le 0 ++ msg))

theorem hsFragments_short {msg : List UInt8} (short : msg.length ≤ 1024) : hsFragments msg = [hsSingle msg] := by
  have count : max ((msg.length + (hsMtu - 5) - 1) / (hsMtu - 5)) 1 = 1 := by
    simp only [hsMtu]
    omega
  have whole : (msg.drop (0 * (hsMtu - 5))).take (hsMtu - 5) = msg := by
    rw [Nat.zero_mul, List.drop_zero, List.take_of_length_le]
    simp only [hsMtu]
    omega
  simp only [hsFragments, count, List.range_one, List.map_cons, List.map_nil, whole]
  rfl

def isFragment (data : List UInt8) : Bool := data.head? = some 0x7F ∧ 5 ≤ data.length

def noiseErr (reason : String) : NetError := .crypto (.noise reason)

/-- What a handshake message is to the link that takes it. -/
inductive Verdict where
  | completes (st : S.HandshakeState) (t : S.TransportState)
  | accepts (msg : List UInt8) (st : S.HandshakeState)
  | ignored

variable {S}

namespace Link

def bind (S : Snow) (localStatic : Octets 32) : Link S :=
  { localStatic, sessions := .empty, peerStatics := .empty, hsInflight := .empty, hsBuf := .empty, recv := .idle,
    tasks := .empty, tx := [] }

def setPeerStatic (l : Link S) (addr : SocketAddr) (key : Octets 32) : Link S :=
  { l with peerStatics := l.peerStatics.insert addr key }

def put (l : Link S) (i : Nat) (task : SendTask) : Link S := { l with tasks := l.tasks.insert i task }

/-- The next step of a call of `send_cell`; none if it has returned. -/
def stepTask (l : Link S) (i : Nat) (eph : S.Ephemeral) : SendTask → Option (Link S × Sent)
  | .check addr cell =>
    match l.sessions.get addr with
    | some _ => some (l.put i (.encrypt addr cell), {})
    | none => some (l.put i (.key addr cell), {})
  | .key addr cell =>
    match l.peerStatics.get addr with
    | some pubk => some (l.put i (.start addr cell pubk), {})
    | none => some (l.put i (.done (.error .noSession)), {})
  | .start addr cell pubk =>
    match l.hsInflight.get addr with
    | some _ => some (l.put i (.poll addr cell), {})
    | none =>
      match S.initiate l.localStatic pubk eph with
      | .error reason => some (l.put i (.done (.error (noiseErr reason))), {})
      | .ok (msg, st) =>
        some ({ l with hsInflight := l.hsInflight.insert addr st }.put i (.poll addr cell),
          { hs := (hsFragments msg).map fun frag => (addr, frag) })
  | .poll addr cell =>
    match l.sessions.get addr with
    | some _ => some (l.put i (.encrypt addr cell), {})
    | none => some (l, {})
  | .giveUp addr => some ({ l with hsInflight := l.hsInflight.remove addr }.put i (.done (.error .timeout)), {})
  | .encrypt addr cell =>
    match l.sessions.get addr with
    | none => some (l.put i (.done (.error .noSession)), {})
    | some t =>
      match cell.encode with
      | .ok buf =>
        match S.transportWrite t buf.bytes with
        | .ok (out, t) => some ({ l with sessions := l.sessions.insert addr t }.put i (.emit addr out), {})
        | .error reason => some (l.put i (.done (.error (noiseErr reason))), {})
      | .error err => some (l.put i (.done (.error err)), {})
      | .panic => some (l.put i (.done .panic), {})
  | .emit addr data => some (l.put i (.done (.ok ())), { cells := [(addr, data)] })
  | .done _ => none

/-- A step that the socket breaks off: the attempt is not kept. -/
def refuseTask (l : Link S) (i : Nat) (eph : S.Ephemeral) (count : Nat) (reason : String) : SendTask → Option (Link S × Sent)
  | .start addr _ pubk =>
    match l.hsInflight.get addr, S.initiate l.localStatic pubk eph with
    | none, .ok (msg, _) =>
      if count < (hsFragments msg).length then
        some (l.put i (.done (.error (.io reason))), { hs := ((hsFragments msg).take count).map fun frag => (addr, frag) })
      else none
    | _, _ => none
  | .emit _ _ => if count = 0 then some (l.put i (.done (.error (.io reason))), {}) else none
  | _ => none

/-- The first part of `handle_hs`: `msg` completes the attempt that is in flight for its sender, or
is a first message, or nothing. -/
def judge (l : Link S) (src : SocketAddr) (msg : List UInt8) (eph : S.Ephemeral) : Verdict S :=
  let second : Verdict S :=
    match S.respond l.localStatic msg eph with
    | .ok (out, st) => .accepts out st
    | .error _ => .ignored
  match l.hsInflight.get src with
  | none => second
  | some st =>
    match S.finish st msg with
    | .ok t => .completes st t
    | .error _ => second

/-- An attempt in flight is taken out whatever `msg` is. -/
def handleHs (l : Link S) (src : SocketAddr) (msg : List UInt8) (eph : S.Ephemeral) : Link S :=
  -- `remove(&src)` comes first, also where `msg` turns out to be a first message.
  let verdict := l.judge src msg eph
  let l := { l with hsInflight := l.hsInflight.remove src }
  match verdict with
  | .completes _ t => { l with sessions := l.sessions.insert src t }
  | .accepts out st => { l with recv := .reply src st out }
  | .ignored => l

def stepRecv (l : Link S) : Option (Link S × Sent) :=
  match l.recv with
  | .idle => none
  | .reply src st msg => some ({ l with recv := .learn src st }, { hs := (hsFragments msg).map fun frag => (src, frag) })
  | .learn src st =>
    match S.remoteStatic st with
    | some key => some ({ l with peerStatics := l.peerStatics.insert src key, recv := .store src st }, {})
    | none => some ({ l with recv := .store src st }, {})
  | .store src st =>
    match S.intoTransportMode st with
    | .ok t => some ({ l with sessions := l.sessions.insert src t, recv := .idle }, {})
    | .error _ => some ({ l with recv := .idle }, {})

/-- A fragment is put to the others of its address. The message is complete when there are as
many as the first of them said; it is cut together by the count of the last. -/
def gatherHs (l : Link S) (src : SocketAddr) (total idx : UInt16) (chunk : List UInt8) : Option (List UInt8) × Link S :=
  let (expected, parts) := (l.hsBuf.get src).getD (total, [])
  -- `insert` into the map of parts: a fragment sent again replaces the one before.
  let parts := (idx, chunk) :: parts.filter fun part => part.1 ≠ idx
  if parts.length = expected.toNat then
    (some ((List.range total.toNat).flatMap fun i => (parts.lookup (UInt16.ofNat i)).getD []),
      { l with hsBuf := l.hsBuf.remove src })
  else (none, { l with hsBuf := l.hsBuf.insert src (expected, parts) })

/-- A datagram that is no fragment: a cell, encrypted or, failing that, clear. -/
def receiveCell (l : Link S) (src : SocketAddr) (data : List UInt8) : Link S :=
  let (plain, l) :=
    match l.sessions.get src with
    | none => (data, l)
    | some t =>
      match S.transportRead t data with
      | .ok (out, t) => (out, { l with sessions := l.sessions.insert src t })
      | .error _ => (data, l)
  match Cell.decode plain with
  | .ok cell => { l with tx := l.tx ++ [(src, cell)] }
  | _ => l

/-- A cell changes at most the session it is encrypted under, and what is handed to the node. -/
theorem receiveCell_cases (l : Link S) (src : SocketAddr) (data : List UInt8) :
    ∃ tx, l.receiveCell src data = { l with tx } ∨ ∃ t out t', l.sessions.get src = some t ∧
      S.transportRead t data = .ok (out, t') ∧ l.receiveCell src data = { l with sessions := l.sessions.insert src t', tx } := by
  have handed (l' : Link S) (plain : List UInt8) : ∃ tx, (match Cell.decode plain with
      | .ok cell => { l' with tx := l'.tx ++ [(src, cell)] }
      | _ => l') = { l' with tx } := by
    split
    · exact ⟨_, rfl⟩
    · exact ⟨_, rfl⟩
  unfold receiveCell
  cases had : l.sessions.get src with
  | none =>
    obtain ⟨tx, same⟩ := handed l data
    exact ⟨tx, .inl same⟩
  | some t =>
    cases read : S.transportRead t data with
    | error reason =>
      obtain ⟨tx, same⟩ := handed l data
      simp only [read]
      exact ⟨tx, .inl same⟩
    | ok opened =>
      obtain ⟨tx, same⟩ := handed { l with sessions := l.sessions.insert src opened.2 } opened.1
      simp only [read]
      exact ⟨tx, .inr ⟨t, opened.1, opened.2, rfl, read, same⟩⟩

def takeFragment (l : Link S) (src : SocketAddr) (data : List UInt8) : Option (List UInt8) × Link S :=
  l.gatherHs src (u16OfLe ((data.drop 1).take 2)) (u16OfLe ((data.drop 3).take 2)) (data.drop 5)

def message? (l : Link S) (src : SocketAddr) (datagram : List UInt8) : Option (List UInt8) :=
  let data := datagram.take hsDgram
  if isFragment data then (l.takeFragment src data).1 else none

/-- One pass of the receive loop up to the point where `handle_hs` sends. -/
def receive (l : Link S) (src : SocketAddr) (datagram : List UInt8) (eph : S.Ephemeral) : Link S :=
  let data := datagram.take hsDgram
  if isFragment data then
    match l.takeFragment src data with
    | (some msg, l) => l.handleHs src msg eph
    | (none, l) => l
  else if data = [] then l else l.receiveCell src data

theorem takeFragment_hsSingle {l : Link S} {src : SocketAddr} (nothing : l.hsBuf.get src = none) (msg : List UInt8) :
    l.takeFragment src (hsSingle msg) = (some msg, { l with hsBuf := l.hsBuf.remove src }) := by
  simp only [takeFragment, gatherHs, nothing, hsSingle]
  simp [u16Le, leBytes, u16OfLe, leValue]

theorem receive_hsSingle {l : Link S} {src : SocketAddr} (nothing : l.hsBuf.get src = none) {msg : List UInt8}
    (short : msg.length ≤ 1024) (eph : S.Ephemeral) :
    l.message? src (hsSingle msg) = some msg ∧
      l.receive src (hsSingle msg) eph = { l with hsBuf := l.hsBuf.remove src }.handleHs src msg eph := by
  have size : (hsSingle msg).length = 5 + msg.length := by simp [hsSingle]; omega
  have whole : (hsSingle msg).take hsDgram = hsSingle msg := List.take_of_length_le (by rw [size, hsDgram]; omega)
  have fragment : isFragment (hsSingle msg) = true := decide_eq_true ⟨rfl, by rw [size]; omega⟩
  simp only [message?, receive, whole, if_pos fragment, takeFragment_hsSingle nothing, and_self]

def step (l : Link S) : LinkEvent S → Option (Link S × Sent)
  | .sendCell i addr cell =>
    match l.tasks.get i with
    | none => some (l.put i (.check addr cell), {})
    | some _ => none
  | .setPeerStatic addr key => some (l.setPeerStatic addr key, {})
  | .step i eph => (l.tasks.get i).bind (l.stepTask i eph)
  | .refuse i eph count reason => (l.tasks.get i).bind (l.refuseTask i eph count reason)
  | .deadline i =>
    match l.tasks.get i with
    | some (.poll addr _) =>
      match l.sessions.get addr with
      | none => some (l.put i (.giveUp addr), {})
      | some _ => none
    | _ => none
  | .receive src data eph =>
    match l.recv with
    | .idle => some (l.receive src data eph, {})
    | _ => none
  | .handle => l.stepRecv

def Step (l : Link S) (event : LinkEvent S) (l' : Link S) : Prop := ∃ sent, l.step event = some (l', sent)

end Link
end Nbf.Net

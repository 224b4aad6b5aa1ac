import Nbf.Net.Link
import Nbf.Net.PlainNoise

/-! Whose key the session of an address is under. -/

set_option autoImplicit false

namespace Nbf.Net

open Nbf.Library Nbf.Crypto

variable {S : Snow}

namespace Link

/-- The registered key of `addr` is `key`, and so is that of its session. -/
structure Bound (addr : SocketAddr) (key : Octets 32) (l : Link S) : Prop where
  registered : l.peerStatics.get addr = some key
  session : ∀ t, l.sessions.get addr = some t → S.transportRemote t = some key

/-- A step leaves the binding, and encrypts a cell for `addr` only under a session with `key`. -/
def Kept (addr : SocketAddr) (key : Octets 32) (l : Link S) (event : LinkEvent S) (l' : Link S) : Prop :=
  Bound addr key l' ∧ ∀ i eph cell t, event = .step i eph → l.tasks.get i = some (.encrypt addr cell) →
    l.sessions.get addr = some t → S.transportRemote t = some key

/-- Whom a step takes for the owner of which address: the key that is registered, the one that an
attempt was made with when its second message comes, the one that a first message claims. -/
def claim? (l : Link S) : LinkEvent S → Option (SocketAddr × Option (Octets 32))
  | .setPeerStatic addr key => some (addr, some key)
  | .receive src datagram eph =>
    match l.message? src datagram with
    | none => none
    | some msg =>
      match l.judge src msg eph with
      | .completes st _ => some (src, S.remoteStatic st)
      | _ => none
  | .handle =>
    match l.recv with
    | .learn src st => (S.remoteStatic st).map fun key => (src, some key)
    | .store src st =>
      match S.intoTransportMode st with
      | .ok _ => some (src, S.remoteStatic st)
      | .error _ => none
    | _ => none
  | _ => none

/-- Nobody but the owner of `key` gets through from `addr`. -/
def Genuine (addr : SocketAddr) (key : Octets 32) (l : Link S) (event : LinkEvent S) (_ : Link S) : Prop :=
  ∀ claim ∈ l.claim? event, claim.1 = addr → claim.2 = some key

def Known (l : Link S) : Prop := ∀ addr st, l.hsInflight.get addr = some st → ∃ key, S.remoteStatic st = some key

inductive Rekeyed (l : Link S) : Option (SocketAddr × Option (Octets 32)) → Link S → Prop where
  | same {l' : Link S} : l'.peerStatics = l.peerStatics →
      (∀ addr, (l'.sessions.get addr).map S.transportRemote = (l.sessions.get addr).map S.transportRemote) → Rekeyed l none l'
  | registered {l' : Link S} (addr : SocketAddr) (key : Octets 32) : l'.peerStatics = l.peerStatics.insert addr key →
      l'.sessions = l.sessions → Rekeyed l (some (addr, some key)) l'
  | session {l' : Link S} (addr : SocketAddr) (t : S.TransportState) : l'.peerStatics = l.peerStatics →
      l'.sessions = l.sessions.insert addr t → Rekeyed l (some (addr, S.transportRemote t)) l'

theorem Rekeyed.of_eq {l l' : Link S} (statics : l'.peerStatics = l.peerStatics) (sessions : l'.sessions = l.sessions) :
    Rekeyed l none l' :=
  .same statics fun _ => by rw [sessions]

theorem Rekeyed.advanced {l l' : Link S} {addr : SocketAddr} {t t' : S.TransportState} (statics : l'.peerStatics = l.peerStatics)
    (has : l.sessions.get addr = some t) (advanced : l'.sessions = l.sessions.insert addr t')
    (remote : S.transportRemote t' = S.transportRemote t) : Rekeyed l none l' := by
  refine .same statics fun other => ?_
  rw [advanced, Table.get_insert]
  split
  next here => rw [here, has, Option.map_some, Option.map_some, remote]
  next => rfl

theorem Rekeyed.bound_iff {l l' : Link S} {claimed : Option (SocketAddr × Option (Octets 32))} (rekeyed : Rekeyed l claimed l')
    {addr : SocketAddr} {key : Octets 32} (bound : Bound addr key l) :
    Bound addr key l' ↔ ∀ claim ∈ claimed, claim.1 = addr → claim.2 = some key := by
  cases rekeyed with
  | same statics sessions =>
    refine ⟨fun _ _ claimed => (by cases claimed), fun _ => ⟨statics ▸ bound.registered, fun t' has => ?_⟩⟩
    obtain ⟨t, had, same⟩ := Option.map_eq_some_iff.mp ((sessions addr).symm.trans (congrArg _ has))
    exact same.symm.trans (bound.session t had)
  | registered addr' key' statics sessions =>
    constructor
    · rintro bound' _ ⟨⟩ rfl
      have registered := bound'.registered
      rwa [statics, Table.get_insert_self] at registered
    · intro genuine
      refine ⟨?_, sessions ▸ bound.session⟩
      rw [statics, Table.get_insert]
      split
      next here => exact genuine _ rfl here.symm
      next => exact bound.registered
  | session addr' t statics sessions =>
    constructor
    · rintro bound' _ ⟨⟩ rfl
      exact bound'.session t (by rw [sessions, Table.get_insert_self])
    · intro genuine
      refine ⟨statics ▸ bound.registered, fun t' has => ?_⟩
      rw [sessions, Table.get_insert] at has
      split at has
      next here =>
        cases has
        exact genuine _ rfl here.symm
      next => exact bound.session t' has

inductive Taken (l : Link S) (src : SocketAddr) (datagram : List UInt8) (eph : S.Ephemeral) : Link S → Prop where
  | gathered (hsBuf : Table SocketAddr (UInt16 × List (UInt16 × List UInt8))) : l.message? src datagram = none →
      Taken l src datagram eph { l with hsBuf }
  | message (hsBuf : Table SocketAddr (UInt16 × List (UInt16 × List UInt8))) (msg : List UInt8) :
      l.message? src datagram = some msg → Taken l src datagram eph ({ l with hsBuf }.handleHs src msg eph)
  | cell (data : List UInt8) : l.message? src datagram = none → Taken l src datagram eph (l.receiveCell src data)

theorem receive_taken (l : Link S) (src : SocketAddr) (datagram : List UInt8) (eph : S.Ephemeral) :
    Taken l src datagram eph (l.receive src datagram eph) := by
  unfold receive
  by_cases fragment : isFragment (datagram.take hsDgram)
  · have put : ∃ hsBuf, (l.takeFragment src (datagram.take hsDgram)).2 = { l with hsBuf } := by
      unfold takeFragment gatherHs
      dsimp only
      split
      · exact ⟨_, rfl⟩
      · exact ⟨_, rfl⟩
    obtain ⟨hsBuf, rest⟩ := put
    have message : l.message? src datagram = (l.takeFragment src (datagram.take hsDgram)).1 := by
      rw [message?]
      exact if_pos fragment
    simp only [if_pos fragment]
    generalize l.takeFragment src (datagram.take hsDgram) = taken at rest message
    obtain ⟨got, l'⟩ := taken
    subst rest
    cases got with
    | none => exact .gathered hsBuf message
    | some msg => exact .message hsBuf msg message
  -- No fragment, so nothing reaches `handle_hs`.
  · have message : l.message? src datagram = none := by
      rw [message?]
      exact if_neg fragment
    simp only [if_neg fragment]
    split
    · exact .gathered l.hsBuf message
    · exact .cell _ message

theorem stepTask_rekeyed (statics : S.LawfulStatics) {l l' : Link S} {i : Nat} {eph : S.Ephemeral} {task : SendTask} {sent : Sent}
    (stepped : l.stepTask i eph task = some (l', sent)) : Rekeyed l none l' := by
  -- Only `encrypt` writes a session, the one it has read.
  unfold stepTask at stepped
  split at stepped
  case h_6 addr cell =>
    split at stepped
    next =>
      cases stepped
      exact .of_eq rfl rfl
    next t has =>
      split at stepped
      next buf =>
        split at stepped
        next out t' wrote =>
          cases stepped
          exact .advanced rfl has rfl (statics.transport_write t _ out t' wrote)
        next =>
          cases stepped
          exact .of_eq rfl rfl
      all_goals
        cases stepped
        exact .of_eq rfl rfl
  all_goals grind [put, Rekeyed.of_eq]

theorem refuseTask_rekeyed {l l' : Link S} {i : Nat} {eph : S.Ephemeral} {count : Nat} {reason : String} {task : SendTask}
    {sent : Sent} (stepped : l.refuseTask i eph count reason task = some (l', sent)) : Rekeyed l none l' := by
  unfold refuseTask at stepped
  split at stepped
  all_goals grind [put, Rekeyed.of_eq]

theorem receiveCell_rekeyed (statics : S.LawfulStatics) (l : Link S) (src : SocketAddr) (data : List UInt8) :
    Rekeyed l none (l.receiveCell src data) := by
  obtain ⟨tx, same | ⟨t, out, t', has, read, same⟩⟩ := l.receiveCell_cases src data
  · rw [same]
    exact .of_eq rfl rfl
  · rw [same]
    exact .advanced rfl has rfl (statics.transport_read t data out t' read)

theorem finish_remote (statics : S.LawfulStatics) {st : S.HandshakeState} {msg : List UInt8} {t : S.TransportState}
    {key : Octets 32} (finished : S.finish st msg = .ok t) (known : S.remoteStatic st = some key) :
    S.transportRemote t = some key := by
  obtain ⟨st₁, read, into⟩ := except_bind_eq_ok.mp finished
  rw [statics.transport st₁ t into, statics.read st msg st₁ key read known]

theorem judge_completes {l : Link S} {src : SocketAddr} {msg : List UInt8} {eph : S.Ephemeral} {st : S.HandshakeState}
    {t : S.TransportState} (verdict : l.judge src msg eph = .completes st t) :
    l.hsInflight.get src = some st ∧ S.finish st msg = .ok t := by
  unfold judge at verdict
  dsimp only at verdict
  split at verdict
  next =>
    split at verdict
    next => cases verdict
    next => cases verdict
  next st' inflight =>
    split at verdict
    next t' finished =>
      cases verdict
      exact ⟨inflight, finished⟩
    next =>
      split at verdict
      next => cases verdict
      next => cases verdict

theorem handleHs_rekeyed (statics : S.LawfulStatics) {l l₀ : Link S} (known : Known l) (src : SocketAddr) (msg : List UInt8)
    (eph : S.Ephemeral) (buffered : ∃ hsBuf, l₀ = { l with hsBuf }) :
    Rekeyed l (match l.judge src msg eph with
      | .completes st _ => some (src, S.remoteStatic st)
      | _ => none) (l₀.handleHs src msg eph) := by
  obtain ⟨hsBuf, rfl⟩ := buffered
  have same : ({ l with hsBuf } : Link S).judge src msg eph = l.judge src msg eph := rfl
  unfold handleHs
  rw [same]
  cases verdict : l.judge src msg eph with
  | completes st t =>
    obtain ⟨inflight, finished⟩ := judge_completes verdict
    obtain ⟨key, remote⟩ := known src st inflight
    have remote' := finish_remote statics finished remote
    dsimp only
    rw [remote, ← remote']
    exact .session src t rfl rfl
  | accepts => exact .of_eq rfl rfl
  | ignored => exact .of_eq rfl rfl

theorem receive_rekeyed (statics : S.LawfulStatics) {l : Link S} (known : Known l) (src : SocketAddr) (datagram : List UInt8)
    (eph : S.Ephemeral) : Rekeyed l (l.claim? (.receive src datagram eph)) (l.receive src datagram eph) := by
  simp only [claim?]
  generalize took : l.receive src datagram eph = l'
  cases took ▸ receive_taken l src datagram eph with
  | gathered hsBuf message =>
    rw [message]
    exact .of_eq rfl rfl
  | message hsBuf msg message =>
    rw [message]
    exact handleHs_rekeyed statics known src msg eph ⟨hsBuf, rfl⟩
  | cell data message =>
    rw [message]
    exact receiveCell_rekeyed statics l src data

theorem stepRecv_rekeyed (statics : S.LawfulStatics) {l l' : Link S} {sent : Sent} (stepped : l.stepRecv = some (l', sent)) :
    Rekeyed l (l.claim? .handle) l' := by
  unfold stepRecv at stepped
  simp only [claim?]
  cases recv : l.recv with
  | idle =>
    rw [recv] at stepped
    cases stepped
  | reply src st msg =>
    rw [recv] at stepped
    cases stepped
    exact .of_eq rfl rfl
  | learn src st =>
    simp only [recv] at stepped
    cases remote : S.remoteStatic st with
    | some key =>
      rw [remote] at stepped
      cases stepped
      simp only [remote]
      exact .registered src key rfl rfl
    | none =>
      rw [remote] at stepped
      cases stepped
      simp only [remote]
      exact .of_eq rfl rfl
  | store src st =>
    simp only [recv] at stepped
    cases into : S.intoTransportMode st with
    | ok t =>
      rw [into] at stepped
      cases stepped
      simp only [into, ← statics.transport st t into]
      exact .session src t rfl rfl
    | error =>
      rw [into] at stepped
      cases stepped
      simp only [into]
      exact .of_eq rfl rfl

theorem step_rekeyed (statics : S.LawfulStatics) {l l' : Link S} {event : LinkEvent S} (known : Known l)
    (step : l.Step event l') : Rekeyed l (l.claim? event) l' := by
  obtain ⟨sent, stepped⟩ := step
  cases event with
  | sendCell i addr cell =>
    simp only [Link.step] at stepped
    split at stepped
    next =>
      cases stepped
      exact .of_eq rfl rfl
    next => cases stepped
  | setPeerStatic addr key =>
    cases stepped
    exact .registered addr key rfl rfl
  | step i eph =>
    obtain ⟨task, -, stepped⟩ := Option.bind_eq_some_iff.mp stepped
    exact stepTask_rekeyed statics stepped
  | refuse i eph count reason =>
    obtain ⟨task, -, stepped⟩ := Option.bind_eq_some_iff.mp stepped
    exact refuseTask_rekeyed stepped
  | deadline i =>
    simp only [Link.step] at stepped
    split at stepped
    next =>
      split at stepped
      next =>
        cases stepped
        exact .of_eq rfl rfl
      next => cases stepped
    next => cases stepped
  | receive src datagram eph =>
    simp only [Link.step] at stepped
    split at stepped
    next =>
      cases stepped
      exact receive_rekeyed statics known src datagram eph
    next => cases stepped
  | handle => exact stepRecv_rekeyed statics stepped

theorem Known.of_less {l l' : Link S} (known : Known l)
    (less : ∀ addr st, l'.hsInflight.get addr = some st → l.hsInflight.get addr = some st) : Known l' :=
  fun addr st has => known addr st (less addr st has)

theorem initiate_known (statics : S.LawfulStatics) {localKey remoteKey : Octets 32} {eph : S.Ephemeral} {msg : List UInt8}
    {st : S.HandshakeState} (made : S.initiate localKey remoteKey eph = .ok (msg, st)) : S.remoteStatic st = some remoteKey := by
  obtain ⟨st₀, built, wrote⟩ := except_bind_eq_ok.mp made
  rw [statics.written st₀ eph msg st wrote, statics.initiator localKey remoteKey st₀ built]

theorem stepTask_known (statics : S.LawfulStatics) {l l' : Link S} {i : Nat} {eph : S.Ephemeral} {task : SendTask} {sent : Sent}
    (known : Known l) (stepped : l.stepTask i eph task = some (l', sent)) : Known l' := by
  -- Only `start` keeps an attempt.
  unfold stepTask at stepped
  split at stepped
  case h_3 addr cell pubk =>
    split at stepped
    next =>
      cases stepped
      exact known
    next =>
      split at stepped
      next =>
        cases stepped
        exact known
      next msg st made =>
        cases stepped
        intro addr' st' has
        rcases Table.get_insert_some has with ⟨-, rfl⟩ | ⟨-, old⟩
        · exact ⟨pubk, initiate_known statics made⟩
        · exact known addr' st' old
  case h_5 addr =>
    cases stepped
    exact known.of_less fun _ _ => Table.get_remove_some
  all_goals grind [put, Known.of_less]

theorem receive_known {l : Link S} (known : Known l) (src : SocketAddr) (datagram : List UInt8) (eph : S.Ephemeral) :
    Known (l.receive src datagram eph) := by
  generalize took : l.receive src datagram eph = l'
  cases took ▸ receive_taken l src datagram eph with
  | gathered => exact known
  | message hsBuf msg _ =>
    unfold handleHs
    dsimp only
    split
    all_goals exact known.of_less fun _ _ => Table.get_remove_some
  | cell data _ =>
    obtain ⟨tx, same | ⟨t, out, t', -, -, same⟩⟩ := l.receiveCell_cases src data
    · exact same ▸ known
    · exact same ▸ known

theorem Known.step (statics : S.LawfulStatics) {l l' : Link S} {event : LinkEvent S} (known : Known l) (step : l.Step event l') :
    Known l' := by
  obtain ⟨sent, stepped⟩ := step
  cases event with
  | step i eph =>
    obtain ⟨task, -, stepped⟩ := Option.bind_eq_some_iff.mp stepped
    exact stepTask_known statics known stepped
  | refuse i eph count reason =>
    obtain ⟨task, -, stepped⟩ := Option.bind_eq_some_iff.mp stepped
    unfold refuseTask at stepped
    split at stepped
    all_goals grind [put, Known.of_less]
  | receive src datagram eph =>
    simp only [Link.step] at stepped
    split at stepped
    next =>
      cases stepped
      exact receive_known known src datagram eph
    next => cases stepped
  | sendCell | setPeerStatic | deadline | handle =>
    simp only [Link.step, stepRecv] at stepped
    grind [put, setPeerStatic, Known.of_less]

theorem known_bind (own : Octets 32) : Known (bind S own) := fun _ _ has => (by cases has)

theorem kept_iff_genuine (statics : S.LawfulStatics) {addr : SocketAddr} {key : Octets 32} {l l' : Link S} {event : LinkEvent S}
    (bound : Bound addr key l) (known : Known l) (step : l.Step event l') :
    Kept addr key l event l' ↔ Genuine addr key l event l' := by
  have rekeyed := step_rekeyed statics known step
  constructor
  · intro kept
    exact (rekeyed.bound_iff bound).mp kept.1
  · intro genuine
    exact ⟨(rekeyed.bound_iff bound).mpr genuine, fun _ _ _ t _ _ has => bound.session t has⟩

/-- Whatever was before: after the registration the session of the address is the owner's, and no
cell goes out under another one, exactly if there was no other session then and nobody else gets
through from the address. -/
theorem kept_iff (statics : S.LawfulStatics) (own : Octets 32) (before : List (LinkEvent S)) (l : Link S)
    (run : Run Step (bind S own) before l) (addr : SocketAddr) (key : Octets 32) (after : List (LinkEvent S)) (l' : Link S) :
    Bound addr key (l.setPeerStatic addr key) ∧ Run (Such Step (Kept addr key)) (l.setPeerStatic addr key) after l' ↔
      (∀ t, l.sessions.get addr = some t → S.transportRemote t = some key) ∧
        Run (Such Step (Genuine addr key)) (l.setPeerStatic addr key) after l' := by
  have known : Known (l.setPeerStatic addr key) :=
    run.invariant Known (fun _ _ _ known step => known.step statics step) (known_bind own)
  have same (bound : Bound addr key (l.setPeerStatic addr key)) :
      Run (Such Step (Kept addr key)) (l.setPeerStatic addr key) after l' ↔
        Run (Such Step (Genuine addr key)) (l.setPeerStatic addr key) after l' :=
    Run.such_iff (fun l => Bound addr key l ∧ Known l)
      (fun _ _ _ inv such => ⟨such.2.1, inv.2.step statics such.1⟩)
      (fun _ _ _ inv step => kept_iff_genuine statics inv.1 inv.2 step) ⟨bound, known⟩
  constructor
  · intro ⟨bound, kept⟩
    exact ⟨bound.session, (same bound).mp kept⟩
  · intro ⟨session, genuine⟩
    have bound : Bound addr key (l.setPeerStatic addr key) := ⟨Table.get_insert_self .., session⟩
    exact ⟨bound, (same bound).mpr genuine⟩

end Link

namespace PlainNoise

def own : Key := .replicate 32 1
def owner : Key := .replicate 32 2
def intruder : Key := .replicate 32 3
def door : SocketAddr := ⟨.v4 loopback, 9300⟩
def letter : Cell := ⟨0, .padding, 0, []⟩

def answered : List (LinkEvent snow) :=
  [.sendCell 0 door letter, .step 0 (10 : UInt8), .step 0 (11 : UInt8), .step 0 (12 : UInt8),
   .receive door (hsSingle (secondMsg own owner 12 23)) (13 : UInt8), .step 0 (14 : UInt8), .step 0 (15 : UInt8),
   .step 0 (16 : UInt8)]

def next (l : Link snow) (event : LinkEvent snow) : Option (Link snow) := (l.step event).map Prod.fst

theorem step_of_next {l l' : Link snow} {event : LinkEvent snow} (taken : next l event = some l') : l.Step event l' := by
  obtain ⟨⟨_, sent⟩, step, rfl⟩ := Option.map_eq_some_iff.mp taken
  exact ⟨sent, step⟩

def genuine? (l : Link snow) (event : LinkEvent snow) : Option (Link snow) :=
  if ∀ claim ∈ l.claim? event, claim.1 = door → claim.2 = some owner then next l event else none

theorem answered_kept : ∃ l',
    Run (Such Link.Step (Link.Kept door owner)) ((Link.bind snow own).setPeerStatic door owner) answered l' ∧
      (l'.sessions.get door).isSome := by
  have computed : ((answered.foldlM genuine? ((Link.bind snow own).setPeerStatic door owner)).bind
      fun l => some (l.sessions.get door).isSome) = some true := by
    decide +kernel
  obtain ⟨l', done, session⟩ := Option.bind_eq_some_iff.mp computed
  have genuine : Run (Such Link.Step (Link.Genuine door owner)) ((Link.bind snow own).setPeerStatic door owner) answered l' :=
    (Run.of_foldlM done).mono fun l event l' taken => by
      unfold genuine? at taken
      split at taken
      next genuine => exact ⟨step_of_next taken, genuine⟩
      next => cases taken
  have kept := (Link.kept_iff lawfulStatics own [] _ (.nil _) door owner answered l').mpr ⟨fun _ has => (by cases has), genuine⟩
  exact ⟨l', kept.2, Option.some.inj session⟩

def intrusion : List (LinkEvent snow) :=
  [.receive door (hsSingle (firstMsg intruder own 30)) (31 : UInt8), .handle, .handle, .handle,
   .sendCell 0 door letter, .step 0 (10 : UInt8)]

/-- A cell for the owner is about to be encrypted under the session of the intruder. -/
theorem intrusion_breaks : ∃ l t, Run Link.Step ((Link.bind snow own).setPeerStatic door owner) intrusion l ∧
    l.tasks.get 0 = some (.encrypt door letter) ∧ l.sessions.get door = some t ∧ snow.transportRemote t = some intruder ∧
    l.peerStatics.get door = some intruder ∧ intruder ≠ owner := by
  have computed : ((intrusion.foldlM next ((Link.bind snow own).setPeerStatic door owner)).bind fun l =>
      some (l.tasks.get 0, (l.sessions.get door).bind snow.transportRemote, l.peerStatics.get door)) =
        some (some (SendTask.encrypt door letter), some intruder, some intruder) := by
    decide +kernel
  obtain ⟨l, done, seen⟩ := Option.bind_eq_some_iff.mp computed
  obtain ⟨task, rest⟩ := Prod.mk.inj (Option.some.inj seen)
  obtain ⟨session, registered⟩ := Prod.mk.inj rest
  obtain ⟨t, has, remote⟩ := Option.bind_eq_some_iff.mp session
  exact ⟨l, t, (Run.of_foldlM done).mono fun _ _ _ => step_of_next, task, has, remote, registered, by decide⟩

end PlainNoise
end Nbf.Net

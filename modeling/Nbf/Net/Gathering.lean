import Mathlib.Data.List.Induction
import Nbf.Library.Lists
import Nbf.Library.Parts
import Nbf.Net.Binding

/-! Handshake fragments of one address (`link.rs`).

`gather` is what the receive loop does with the fragments of one address, apart
from everything else it does. Whether the fragments of a message come out as the
message depends on what is kept of the address before them.
-/

set_option autoImplicit false

namespace Nbf.Net

open Nbf.Library Nbf.Crypto

structure HsFrag where
  total : UInt16
  idx : UInt16
  chunk : List UInt8

/-- The fragments kept of an address, with the count that the first of them gave. -/
abbrev HsBuf := Option (UInt16 × List (UInt16 × List UInt8))

def readFrag (data : List UInt8) : HsFrag :=
  ⟨u16OfLe ((data.drop 1).take 2), u16OfLe ((data.drop 3).take 2), data.drop 5⟩

/-- The parts with an index below the count, in order; one that is missing is left out. -/
def assemble (total : UInt16) (parts : List (UInt16 × List UInt8)) : List UInt8 :=
  (List.range total.toNat).flatMap fun i => (parts.lookup (UInt16.ofNat i)).getD []

def gather (buf : HsBuf) (frag : HsFrag) : Option (List UInt8) × HsBuf :=
  let (expected, parts) := buf.getD (frag.total, [])
  let parts := putPart parts frag.idx frag.chunk
  if parts.length = expected.toNat then (some (assemble frag.total parts), none) else (none, some (expected, parts))

def gatherAll : HsBuf → List HsFrag → List (List UInt8) × HsBuf
  | buf, [] => ([], buf)
  | buf, frag :: frags =>
    let (msg, buf) := gather buf frag
    let (msgs, buf) := gatherAll buf frags
    (msg.toList ++ msgs, buf)

theorem gatherAll_append (buf : HsBuf) (first second : List HsFrag) :
    gatherAll buf (first ++ second) =
      ((gatherAll buf first).1 ++ (gatherAll (gatherAll buf first).2 second).1, (gatherAll (gatherAll buf first).2 second).2) := by
  induction first generalizing buf with
  | nil => rfl
  | cons frag first ih => simp only [List.cons_append, gatherAll, ih, List.append_assoc]

/-! ## The fragments of a message -/

/-- How many datagrams `send_hs_fragmented` makes. -/
def hsCount (msg : List UInt8) : Nat := max ((msg.length + (hsMtu - 5) - 1) / (hsMtu - 5)) 1

def hsChunk (msg : List UInt8) (i : Nat) : List UInt8 := (msg.drop (i * (hsMtu - 5))).take (hsMtu - 5)

def hsFrag (msg : List UInt8) (i : Nat) : HsFrag := ⟨UInt16.ofNat (hsCount msg), UInt16.ofNat i, hsChunk msg i⟩

theorem hsCount_pos (msg : List UInt8) : 0 < hsCount msg := Nat.lt_of_lt_of_le Nat.zero_lt_one (Nat.le_max_right _ _)

theorem length_hsChunk_le (msg : List UInt8) (i : Nat) : (hsChunk msg i).length ≤ 1195 := List.length_take_le _ _

theorem hsFragments_eq (msg : List UInt8) : hsFragments msg = (List.range (hsCount msg)).map fun i =>
    0x7F :: (u16Le (UInt16.ofNat (hsCount msg)) ++ (u16Le (UInt16.ofNat i) ++ hsChunk msg i)) := rfl

theorem readFrag_datagram (total idx : UInt16) (chunk : List UInt8) :
    readFrag (0x7F :: (u16Le total ++ (u16Le idx ++ chunk))) = ⟨total, idx, chunk⟩ := by
  have first : ((0x7F :: (u16Le total ++ (u16Le idx ++ chunk))).drop 1).take 2 = u16Le total := by
    rw [List.drop_succ_cons, List.drop_zero]
    exact List.take_left' (length_u16Le _)
  have second : ((0x7F :: (u16Le total ++ (u16Le idx ++ chunk))).drop 3).take 2 = u16Le idx := by
    rw [List.drop_succ_cons, List.drop_left' (length_u16Le _)]
    exact List.take_left' (length_u16Le _)
  have rest : (0x7F :: (u16Le total ++ (u16Le idx ++ chunk))).drop 5 = chunk := by
    rw [List.drop_succ_cons, ← List.append_assoc]
    exact List.drop_left' (by simp)
  rw [readFrag, first, second, rest, u16OfLe_u16Le, u16OfLe_u16Le]

theorem flatMap_hsChunk (msg : List UInt8) (n : Nat) : (List.range n).flatMap (hsChunk msg) = msg.take (n * 1195) := by
  induction n with
  | zero => simp
  | succ n ih =>
    rw [List.range_succ, List.flatMap_append, ih, Nat.add_mul, Nat.one_mul, List.take_add]
    simp [hsChunk, hsMtu]

theorem length_le_hsCount (msg : List UInt8) : msg.length ≤ hsCount msg * 1195 := by
  simp only [hsCount, hsMtu]
  omega

theorem flatMap_all (msg : List UInt8) : (List.range (hsCount msg)).flatMap (hsChunk msg) = msg := by
  rw [flatMap_hsChunk]
  exact List.take_of_length_le (length_le_hsCount msg)

theorem hsChunk_ne_nil {msg : List UInt8} {i : Nat} (several : 1 < hsCount msg) (lt : i < hsCount msg) : hsChunk msg i ≠ [] := by
  intro empty
  have short := congrArg List.length empty
  simp only [hsChunk, hsMtu, List.length_take, List.length_drop, List.length_nil] at short
  simp only [hsCount, hsMtu] at several lt
  omega

/-! ## Fragments of a message in some order

A buffer is taken as the count and the parts that the next fragment finds. What
the fragments of `msg` in the order `js` put in are `entries msg js`.
-/

def entries (msg : List UInt8) (js : List Nat) : List (UInt16 × List UInt8) := js.map fun j => (UInt16.ofNat j, hsChunk msg j)

def fresh (parts : List (UInt16 × List UInt8)) (js : List Nat) : Nat :=
  js.countP fun j => (parts.lookup (UInt16.ofNat j)).isNone

structure Distinct (js : List Nat) : Prop where
  nodup : js.Nodup
  small : ∀ j ∈ js, j < 2 ^ 16

theorem ofNat_inj {i j : Nat} (smallI : i < 2 ^ 16) (smallJ : j < 2 ^ 16) (same : UInt16.ofNat i = UInt16.ofNat j) : i = j := by
  have values := congrArg UInt16.toNat same
  rwa [UInt16.toNat_ofNat_of_lt' smallI, UInt16.toNat_ofNat_of_lt' smallJ] at values

theorem Distinct.keyed {js : List Nat} (distinct : Distinct js) (msg : List UInt8) : OnceKeyed (entries msg js) := by
  unfold OnceKeyed entries
  rw [List.map_map]
  exact distinct.nodup.map_on fun i memberI j memberJ same => ofNat_inj (distinct.small i memberI) (distinct.small j memberJ) same

theorem Distinct.of_append {first second : List Nat} (distinct : Distinct (first ++ second)) : Distinct first :=
  ⟨(List.nodup_append.mp distinct.nodup).1, fun j member => distinct.small j (List.mem_append_left _ member)⟩

theorem Distinct.of_perm {js : List Nat} {n : Nat} (numbered : n < 2 ^ 16) (order : js.Perm (List.range n)) : Distinct js := by
  refine ⟨order.nodup_iff.mpr List.nodup_range, fun j member => ?_⟩
  exact Nat.lt_trans (List.mem_range.mp (order.mem_iff.mp member)) numbered

theorem countP_entries (parts : List (UInt16 × List UInt8)) (msg : List UInt8) (js : List Nat) :
    ((entries msg js).countP fun entry => (parts.lookup entry.1).isNone) = fresh parts js := by
  rw [entries, List.countP_map]
  rfl

theorem fresh_append (parts : List (UInt16 × List UInt8)) (first second : List Nat) :
    fresh parts (first ++ second) = fresh parts first + fresh parts second := List.countP_append

theorem fresh_le (parts : List (UInt16 × List UInt8)) (js : List Nat) : fresh parts js ≤ js.length := List.countP_le_length

theorem length_entries {parts : List (UInt16 × List UInt8)} (keyed : OnceKeyed parts) {js : List Nat} (distinct : Distinct js)
    (msg : List UInt8) : (putParts parts (entries msg js)).length = parts.length + fresh parts js := by
  rw [length_putParts keyed (distinct.keyed msg), countP_entries]

theorem lookup_entries (parts : List (UInt16 × List UInt8)) {js : List Nat} (distinct : Distinct js) (msg : List UInt8) {i : Nat}
    (small : i < 2 ^ 16) : (putParts parts (entries msg js)).lookup (UInt16.ofNat i) =
      if i ∈ js then some (hsChunk msg i) else parts.lookup (UInt16.ofNat i) := by
  by_cases member : i ∈ js
  · rw [if_pos member]
    exact lookup_putParts_of_mem parts (distinct.keyed msg) (List.mem_map.mpr ⟨i, member, rfl⟩)
  · rw [if_neg member]
    apply lookup_putParts_of_not_mem
    intro known
    simp only [entries, List.map_map, List.mem_map, Function.comp_apply] at known
    obtain ⟨j, arrived, same⟩ := known
    exact member (ofNat_inj (distinct.small j arrived) small same ▸ arrived)

/-- An address without fragments counts like one with none of the message's own. -/
theorem gatherAll_begin (buf : HsBuf) (msg : List UInt8) (js : List Nat) :
    (gatherAll buf (js.map (hsFrag msg))).1 =
      (gatherAll (some (buf.getD (UInt16.ofNat (hsCount msg), []))) (js.map (hsFrag msg))).1 := by
  cases js with
  | nil => rfl
  | cons j js =>
    cases buf with
    | none => rfl
    | some pair => rfl

theorem gatherAll_short {expected : UInt16} {parts : List (UInt16 × List UInt8)} (keyed : OnceKeyed parts) (msg : List UInt8)
    {js : List Nat} (distinct : Distinct js) (short : parts.length + fresh parts js < expected.toNat ∨ expected.toNat = 0) :
    gatherAll (some (expected, parts)) (js.map (hsFrag msg)) = ([], some (expected, putParts parts (entries msg js))) := by
  induction js using List.reverseRecOn with
  | nil => rfl
  | append_singleton js j ih =>
    have before : parts.length + fresh parts js < expected.toNat ∨ expected.toNat = 0 := by
      rw [fresh_append] at short
      omega
    have count := length_entries keyed distinct msg
    rw [List.map_append, gatherAll_append, ih distinct.of_append before]
    have put : putParts parts (entries msg (js ++ [j])) =
        putPart (putParts parts (entries msg js)) (UInt16.ofNat j) (hsChunk msg j) := by
      rw [entries, List.map_append, putParts_append]
      rfl
    have some : 0 < (putParts parts (entries msg (js ++ [j]))).length := by
      rw [put]
      exact Nat.succ_pos _
    have open_ : (putPart (putParts parts (entries msg js)) (UInt16.ofNat j) (hsChunk msg j)).length ≠ expected.toNat := by
      rw [← put]
      omega
    simp only [List.map_cons, List.map_nil, gatherAll, gather, hsFrag, Option.getD_some, if_neg open_, put]
    rfl

/-- The last index that is missing completes a message, whatever comes behind it. -/
theorem gatherAll_complete {expected : UInt16} {parts : List (UInt16 × List UInt8)} (keyed : OnceKeyed parts) (msg : List UInt8)
    {before after : List Nat} {j : Nat} (distinct : Distinct (before ++ j :: after))
    (short : parts.length + fresh parts before < expected.toNat)
    (enough : parts.length + fresh parts (before ++ [j]) = expected.toNat) :
    (gatherAll (some (expected, parts)) ((before ++ j :: after).map (hsFrag msg))).1 =
      assemble (UInt16.ofNat (hsCount msg)) (putParts parts (entries msg (before ++ [j]))) ::
        (gatherAll none (after.map (hsFrag msg))).1 := by
  have until_ : Distinct (before ++ [j]) := by
    rw [List.append_cons] at distinct
    exact distinct.of_append
  have put : putParts parts (entries msg (before ++ [j])) =
      putPart (putParts parts (entries msg before)) (UInt16.ofNat j) (hsChunk msg j) := by
    rw [entries, List.map_append, putParts_append]
    rfl
  have full : (putPart (putParts parts (entries msg before)) (UInt16.ofNat j) (hsChunk msg j)).length = expected.toNat := by
    rw [← put, length_entries keyed until_, enough]
  rw [List.map_append, gatherAll_append, gatherAll_short keyed msg distinct.of_append (.inl short)]
  simp only [List.map_cons, gatherAll, gather, hsFrag, Option.getD_some, if_pos full, put]
  rfl

/-! ## Which buffers a message gets through -/

/-- A buffer that a fragment may find: the count is not reached, or it is 0 and never will be. -/
structure Pending (expected : UInt16) (parts : List (UInt16 × List UInt8)) : Prop where
  keyed : OnceKeyed parts
  below : parts.length < expected.toNat ∨ expected.toNat = 0
  /-- No datagram is longer than the receive buffer. -/
  fit : ∀ idx chunk, parts.lookup idx = some chunk → chunk.length ≤ 2043

/-- The count kept with the parts is that of the different indices among them and the message's own, and
a part that is kept under an index of the message is the message's own. -/
structure Recoverable (expected : UInt16) (parts : List (UInt16 × List UInt8)) (msg : List UInt8) : Prop where
  numbered : hsCount msg < 2 ^ 16
  count : expected.toNat = parts.length + fresh parts (List.range (hsCount msg))
  own : ∀ i < hsCount msg, ∀ chunk, parts.lookup (UInt16.ofNat i) = some chunk → chunk = hsChunk msg i

section Order

variable {expected : UInt16} {parts : List (UInt16 × List UInt8)} {msg : List UInt8}

theorem assemble_of_numbered (numbered : hsCount msg < 2 ^ 16) (parts : List (UInt16 × List UInt8)) :
    assemble (UInt16.ofNat (hsCount msg)) parts =
      (List.range (hsCount msg)).flatMap fun i => (parts.lookup (UInt16.ofNat i)).getD [] := by
  rw [assemble, UInt16.toNat_ofNat_of_lt' numbered]

/-- What has not arrived when the message completes is cut in from the parts kept before. -/
theorem assemble_entries (numbered : hsCount msg < 2 ^ 16) {early late : List Nat}
    (order : (early ++ late).Perm (List.range (hsCount msg))) :
    assemble (UInt16.ofNat (hsCount msg)) (putParts parts (entries msg early)) = (List.range (hsCount msg)).flatMap fun i =>
      if i ∈ late then (parts.lookup (UInt16.ofNat i)).getD [] else hsChunk msg i := by
  have distinct := Distinct.of_perm numbered order
  rw [assemble_of_numbered numbered]
  apply List.flatMap_congr
  intro i within
  rw [lookup_entries parts distinct.of_append msg (Nat.lt_trans (List.mem_range.mp within) numbered)]
  rcases List.mem_append.mp (order.mem_iff.mpr within) with arrived | missing
  · have other : i ∉ late := fun missing => (List.nodup_append.mp distinct.nodup).2.2 i arrived i missing rfl
    rw [if_pos arrived, if_neg other, Option.getD_some]
  · have other : i ∉ early := fun arrived => (List.nodup_append.mp distinct.nodup).2.2 i arrived i missing rfl
    rw [if_neg other, if_pos missing]

theorem gatherAll_fewer (numbered : hsCount msg < 2 ^ 16) {js : List Nat} (distinct : Distinct js)
    (fewer : js.length < hsCount msg) :
    (gatherAll none (js.map (hsFrag msg))).1 = [] := by
  have short : ([] : List (UInt16 × List UInt8)).length + fresh [] js < (UInt16.ofNat (hsCount msg)).toNat := by
    have bound := fresh_le [] js
    rw [UInt16.toNat_ofNat_of_lt' numbered, List.length_nil]
    omega
  rw [gatherAll_begin, Option.getD_none, gatherAll_short keyed_nil msg distinct (.inl short)]

theorem fresh_perm (parts : List (UInt16 × List UInt8)) {js js' : List Nat} (order : js.Perm js') :
    fresh parts js = fresh parts js' := order.countP_eq _

theorem exists_completing {js : List Nat} (below : parts.length < expected.toNat)
    (enough : expected.toNat ≤ parts.length + fresh parts js) :
    ∃ before j after, js = before ++ j :: after ∧ parts.length + fresh parts before < expected.toNat ∧
      parts.length + fresh parts (before ++ [j]) = expected.toNat := by
  have none : ¬ expected.toNat ≤ parts.length + fresh parts [] := Nat.not_le.mpr below
  obtain ⟨before, j, after, split, short, reached⟩ :=
    exists_turn (fun sofar => expected.toNat ≤ parts.length + fresh parts sofar) none enough
  have step := fresh_le parts [j]
  rw [List.length_singleton] at step
  refine ⟨before, j, after, split, Nat.lt_of_not_le short, ?_⟩
  rw [fresh_append] at reached ⊢
  omega

/-- The order in which the fragments of the message come does not matter. -/
theorem Recoverable.gathers (recoverable : Recoverable expected parts msg) (pending : Pending expected parts) {js : List Nat}
    (order : js.Perm (List.range (hsCount msg))) : (gatherAll (some (expected, parts)) (js.map (hsFrag msg))).1 = [msg] := by
  have total := (fresh_perm parts order).symm ▸ recoverable.count
  have below : parts.length < expected.toNat := by
    rcases pending.below with below | zero
    · exact below
    · have none : parts = [] := List.length_eq_zero_iff.mp (by omega)
      have all : fresh parts js = js.length := by simp [none, fresh]
      have count := order.length_eq
      rw [List.length_range] at count
      have := hsCount_pos msg
      omega
  -- The message completes with the first fragment that makes the count full.
  obtain ⟨before, j, after, rfl, short, full⟩ := exists_completing below (Nat.le_of_eq total)
  have distinct := Distinct.of_perm recoverable.numbered order
  have rest : fresh parts after = 0 := by
    rw [List.append_cons, fresh_append] at total
    omega
  have order' : ((before ++ [j]) ++ after).Perm (List.range (hsCount msg)) := by rwa [← List.append_cons]
  have fewer : after.length < hsCount msg := by
    have count := order.length_eq
    rw [List.length_append, List.length_cons, List.length_range] at count
    omega
  have behind : Distinct after :=
    ⟨(List.nodup_append.mp (List.append_cons .. ▸ distinct.nodup)).2.1,
      fun i member => distinct.small i (List.mem_append_right _ (List.mem_cons_of_mem _ member))⟩
  rw [gatherAll_complete pending.keyed msg distinct short full, gatherAll_fewer recoverable.numbered behind fewer,
    assemble_entries recoverable.numbered order']
  congr 1
  -- What is still to come is known already, and the same.
  refine Eq.trans (List.flatMap_congr fun i within => ?_) (flatMap_all msg)
  split
  next missing =>
    have known := List.countP_eq_zero.mp rest i missing
    rw [Bool.not_eq_true, Option.isNone_eq_false_iff] at known
    obtain ⟨chunk, kept⟩ := Option.isSome_iff_exists.mp known
    rw [kept, Option.getD_some]
    exact recoverable.own i (List.mem_range.mp within) chunk kept
  next => rfl

/-- No message is cut together of more bytes than the datagrams had room for. -/
theorem length_assemble_le (total : UInt16) (fit : ∀ idx chunk, parts.lookup idx = some chunk → chunk.length ≤ 2043) :
    (assemble total parts).length ≤ total.toNat * 2043 := by
  have each : ∀ i, ((parts.lookup (UInt16.ofNat i)).getD []).length ≤ 2043 := by
    intro i
    cases known : parts.lookup (UInt16.ofNat i) with
    | none => simp
    | some chunk => exact fit _ chunk known
  have upTo (n : Nat) : ((List.range n).flatMap fun i => (parts.lookup (UInt16.ofNat i)).getD []).length ≤ n * 2043 := by
    induction n with
    | zero => simp
    | succ n ih =>
      have last := each n
      simp only [List.range_succ, List.flatMap_append, List.flatMap_cons, List.flatMap_nil, List.append_nil, List.length_append]
      omega
  exact upTo total.toNat

theorem fit_put (fit : ∀ idx chunk, parts.lookup idx = some chunk → chunk.length ≤ 2043) {idx : UInt16} {chunk : List UInt8}
    (short : chunk.length ≤ 2043) : ∀ k c, (putPart parts idx chunk).lookup k = some c → c.length ≤ 2043 := by
  intro k c known
  by_cases same : k = idx
  · subst same
    rw [lookup_putPart_self] at known
    rw [← Option.some.inj known]
    exact short
  · rw [lookup_putPart_of_ne _ _ same] at known
    exact fit k c known

theorem Pending.put (pending : Pending expected parts) {idx : UInt16} {chunk : List UInt8} (short : chunk.length ≤ 2043)
    (open_ : (putPart parts idx chunk).length ≠ expected.toNat) : Pending expected (putPart parts idx chunk) where
  keyed := pending.keyed.put idx chunk
  below := by
    have count := length_putPart pending.keyed idx chunk
    have below := pending.below
    split at count <;> omega
  fit := fit_put pending.fit short

end Order

def HsBuf.Pending (buf : HsBuf) : Prop := ∀ expected parts, buf = some (expected, parts) → Net.Pending expected parts

theorem pending_fresh (total : UInt16) : Pending total [] where
  keyed := keyed_nil
  below := by
    rw [List.length_nil]
    omega
  fit _ _ known := by cases known

theorem HsBuf.Pending.getD {buf : HsBuf} (pending : buf.Pending) (total : UInt16) :
    Net.Pending (buf.getD (total, [])).1 (buf.getD (total, [])).2 := by
  cases buf with
  | none => exact pending_fresh total
  | some pair => exact pending pair.1 pair.2 rfl

theorem HsBuf.Pending.gather {buf : HsBuf} (pending : buf.Pending) {frag : HsFrag} (short : frag.chunk.length ≤ 2043) :
    HsBuf.Pending (gather buf frag).2 ∧ ∀ msg, (gather buf frag).1 = some msg → msg.length ≤ frag.total.toNat * 2043 := by
  have found := pending.getD frag.total
  unfold Net.gather
  dsimp only
  split
  next full =>
    refine ⟨fun expected parts kept => (by cases kept), fun msg came => ?_⟩
    rw [← Option.some.inj came]
    exact length_assemble_le _ (fit_put found.fit short)
  next open_ =>
    refine ⟨fun expected parts kept => ?_, fun msg came => (by cases came)⟩
    cases kept
    exact found.put short open_

theorem HsBuf.Pending.gatherAll {buf : HsBuf} (pending : buf.Pending) {frags : List HsFrag} (bound : Nat)
    (short : ∀ frag ∈ frags, frag.chunk.length ≤ 2043 ∧ frag.total.toNat ≤ bound) :
    HsBuf.Pending (gatherAll buf frags).2 ∧ ∀ msg ∈ (gatherAll buf frags).1, msg.length ≤ bound * 2043 := by
  induction frags generalizing buf with
  | nil => exact ⟨pending, fun msg member => (by cases member)⟩
  | cons frag frags ih =>
    obtain ⟨fits, counted⟩ := short frag List.mem_cons_self
    obtain ⟨next, came⟩ := pending.gather fits
    obtain ⟨rest, later⟩ := ih next fun frag member => short frag (List.mem_cons_of_mem _ member)
    refine ⟨rest, fun msg member => ?_⟩
    rcases List.mem_append.mp member with first | second
    · exact Nat.le_trans (came msg (Option.mem_toList.mp first)) (Nat.mul_le_mul_right _ counted)
    · exact later msg second

section Order

variable {expected : UInt16} {parts : List (UInt16 × List UInt8)} {msg : List UInt8}

theorem numbered_of_gathers (pending : Pending expected parts)
    (gathers : (gatherAll (some (expected, parts)) ((List.range (hsCount msg)).map (hsFrag msg))).1 = [msg]) :
    hsCount msg < 2 ^ 16 := by
  by_contra large
  have kept : HsBuf.Pending (some (expected, parts)) := fun _ _ same => (by cases same; exact pending)
  have bound : ∀ frag ∈ (List.range (hsCount msg)).map (hsFrag msg),
      frag.chunk.length ≤ 2043 ∧ frag.total.toNat ≤ hsCount msg % 65536 := by
    intro frag member
    obtain ⟨i, -, rfl⟩ := List.mem_map.mp member
    have total : (hsFrag msg i).total.toNat = hsCount msg % 65536 := UInt16.toNat_ofNat'
    exact ⟨Nat.le_trans (length_hsChunk_le msg i) (by decide), Nat.le_of_eq total⟩
  have short := (kept.gatherAll _ bound).2 msg (by rw [gathers]; exact List.mem_singleton_self msg)
  simp only [hsCount, hsMtu] at large short
  omega

theorem cut_of_gathers (pending : Pending expected parts) (numbered : hsCount msg < 2 ^ 16) {before after : List Nat} {j : Nat}
    (order : (before ++ j :: after).Perm (List.range (hsCount msg))) (short : parts.length + fresh parts before < expected.toNat)
    (full : parts.length + fresh parts (before ++ [j]) = expected.toNat)
    (gathers : (gatherAll (some (expected, parts)) ((before ++ j :: after).map (hsFrag msg))).1 = [msg]) :
    ((List.range (hsCount msg)).flatMap fun i =>
      if i ∈ after then (parts.lookup (UInt16.ofNat i)).getD [] else hsChunk msg i) = msg := by
  rw [gatherAll_complete pending.keyed msg (Distinct.of_perm numbered order) short full] at gathers
  have order' : ((before ++ [j]) ++ after).Perm (List.range (hsCount msg)) := by rwa [← List.append_cons]
  rw [← assemble_entries numbered order']
  exact (List.cons.inj gathers).1

def olds (parts : List (UInt16 × List UInt8)) (msg : List UInt8) : List Nat :=
  (List.range (hsCount msg)).filter fun i => !(parts.lookup (UInt16.ofNat i)).isNone

def news (parts : List (UInt16 × List UInt8)) (msg : List UInt8) : List Nat :=
  (List.range (hsCount msg)).filter fun i => (parts.lookup (UInt16.ofNat i)).isNone

theorem olds_news_perm (parts : List (UInt16 × List UInt8)) (msg : List UInt8) :
    (olds parts msg ++ news parts msg).Perm (List.range (hsCount msg)) :=
  List.perm_append_comm.trans (List.filter_append_perm _ _)

theorem lookup_news {i : Nat} (member : i ∈ news parts msg) : parts.lookup (UInt16.ofNat i) = none :=
  Option.isNone_iff_eq_none.mp (List.mem_filter.mp member).2

theorem mem_olds {i : Nat} (lt : i < hsCount msg) {chunk : List UInt8} (kept : parts.lookup (UInt16.ofNat i) = some chunk) :
    i ∈ olds parts msg := List.mem_filter.mpr ⟨List.mem_range.mpr lt, by simp [kept]⟩

theorem fresh_olds {known : List Nat} (within : ∀ i ∈ known, i ∈ olds parts msg) : fresh parts known = 0 := by
  apply List.countP_eq_zero.mpr
  intro i member
  simpa using (List.mem_filter.mp (within i member)).2

theorem fresh_news (parts : List (UInt16 × List UInt8)) (msg : List UInt8) :
    fresh parts (news parts msg) = fresh parts (List.range (hsCount msg)) := by
  rw [← fresh_perm parts (olds_news_perm parts msg), fresh_append, fresh_olds fun _ member => member, Nat.zero_add]

theorem cut_missing_ne {late : List Nat} (unknown : ∀ k ∈ late, parts.lookup (UInt16.ofNat k) = none) {i : Nat}
    (missing : i ∈ late) (lt : i < hsCount msg) (several : 1 < hsCount msg) :
    ((List.range (hsCount msg)).flatMap fun k =>
      if k ∈ late then (parts.lookup (UInt16.ofNat k)).getD [] else hsChunk msg k) ≠ msg := by
  intro joined
  have less := length_flatMap_lt (f := fun k => if k ∈ late then (parts.lookup (UInt16.ofNat k)).getD [] else hsChunk msg k)
    (g := hsChunk msg) (l := List.range (hsCount msg)) (a := i) ?_ (List.mem_range.mpr lt) ?_
  · rw [joined, flatMap_all] at less
    omega
  · intro k _
    split
    next later => simp [unknown k later]
    next => exact Nat.le_refl _
  · simp only [if_pos missing, unknown i missing, Option.getD_none, List.length_nil]
    exact List.length_pos_iff.mpr (hsChunk_ne_nil several lt)

/-- A message that gets through in every order finds a buffer whose count its last new fragment fills,
with no part of another message under an index of its own. -/
theorem recoverable_of_gathers (pending : Pending expected parts)
    (gathers : ∀ js : List Nat, js.Perm (List.range (hsCount msg)) →
      (gatherAll (some (expected, parts)) (js.map (hsFrag msg))).1 = [msg]) : Recoverable expected parts msg := by
  have numbered := numbered_of_gathers pending (gathers _ (List.Perm.refl _))
  have inOrder := Distinct.of_perm numbered (List.Perm.refl (List.range (hsCount msg)))
  -- The fragments in order complete some message, so there is an index that makes the count full.
  have reached : ¬ (parts.length + fresh parts (List.range (hsCount msg)) < expected.toNat ∨ expected.toNat = 0) := by
    intro short
    have none := gathers _ (List.Perm.refl _)
    rw [gatherAll_short pending.keyed msg inOrder short] at none
    cases none
  have below := pending.below
  have all := olds_news_perm parts msg
  have total := fresh_news parts msg
  obtain ⟨early, j, late, cut, short, full⟩ : ∃ early j late, news parts msg = early ++ j :: late ∧
      parts.length + fresh parts early < expected.toNat ∧ parts.length + fresh parts (early ++ [j]) = expected.toNat :=
    exists_completing (by omega) (by omega)
  -- With some of the known indices in front, the same fragment completes the message.
  have through {front after : List Nat} (within : ∀ i ∈ front, i ∈ olds parts msg)
      (order : (front ++ (early ++ j :: after)).Perm (List.range (hsCount msg))) :
      ((List.range (hsCount msg)).flatMap fun i =>
        if i ∈ after then (parts.lookup (UInt16.ofNat i)).getD [] else hsChunk msg i) = msg := by
    rw [← List.append_assoc] at order
    apply cut_of_gathers pending numbered order
    · rw [fresh_append, fresh_olds within]
      omega
    · rw [List.append_assoc, fresh_append, fresh_olds within]
      omega
    · exact gathers _ order
  -- It is the last new one, since those behind it would be missing.
  have last : late = [] := by
    by_contra more
    obtain ⟨i, missing⟩ := List.exists_mem_of_ne_nil late more
    have unknown : ∀ k ∈ late, parts.lookup (UInt16.ofNat k) = none := fun k member =>
      lookup_news (cut ▸ List.mem_append_right _ (List.mem_cons_of_mem _ member))
    rw [cut] at all
    have inRange (k : Nat) (member : k ∈ early ++ j :: late) : k < hsCount msg :=
      List.mem_range.mp (all.mem_iff.mp (List.mem_append_right _ member))
    have apart : i ≠ j := by
      rintro rfl
      have nodup := (List.nodup_append.mp (all.nodup_iff.mpr List.nodup_range)).2.1
      exact (List.nodup_cons.mp (List.nodup_append.mp nodup).2.1).1 missing
    have iLt := inRange i (by simp [missing])
    have jLt := inRange j (by simp)
    exact cut_missing_ne unknown missing iLt (by omega) (through (fun _ member => member) all)
  subst last
  refine ⟨numbered, by rw [← total, cut, full], fun i within chunk kept => ?_⟩
  -- A known index that comes last is cut in from what is kept.
  have old := mem_olds within kept
  have order : ((olds parts msg).erase i ++ (early ++ j :: [i])).Perm (List.range (hsCount msg)) := by
    have front : (olds parts msg).erase i ++ (early ++ j :: [i]) = ((olds parts msg).erase i ++ (early ++ [j])) ++ [i] := by simp
    have moved : (((olds parts msg).erase i ++ (early ++ [j])) ++ [i]).Perm (olds parts msg ++ (early ++ [j])) :=
      List.perm_append_comm.trans ((List.perm_cons_erase old).symm.append_right _)
    rw [cut] at all
    rw [front]
    exact moved.trans all
  have joined := through (fun _ member => List.mem_of_mem_erase member) order
  have same := flatMap_cancel List.nodup_range (List.mem_range.mpr within) ?_ (joined.trans (flatMap_all msg).symm)
  · simpa [kept] using same
  · intro k _ other
    simp [other]

end Order

/-! ## The link -/

namespace Link

variable {S : Snow}

def fragmentOf (src : SocketAddr) : LinkEvent S → Option (List UInt8)
  | .receive sender datagram _ =>
    if sender = src ∧ isFragment (datagram.take hsDgram) then some (datagram.take hsDgram) else none
  | _ => none

def handed (src : SocketAddr) (l : Link S) : LinkEvent S → List (List UInt8)
  | .receive sender datagram _ => if sender = src then (l.message? src datagram).toList else []
  | _ => []

theorem gatherHs_src (l : Link S) (src : SocketAddr) (total idx : UInt16) (chunk : List UInt8) :
    ((l.gatherHs src total idx chunk).1, (l.gatherHs src total idx chunk).2.hsBuf.get src) =
      gather (l.hsBuf.get src) ⟨total, idx, chunk⟩ := by
  unfold gatherHs gather putPart
  dsimp only
  split
  · rw [Table.get_remove_self]
    rfl
  · rw [Table.get_insert_self]

theorem gatherHs_other (l : Link S) {src other : SocketAddr} (apart : other ≠ src) (total idx : UInt16) (chunk : List UInt8) :
    (l.gatherHs src total idx chunk).2.hsBuf.get other = l.hsBuf.get other := by
  unfold gatherHs
  dsimp only
  split
  · exact Table.get_remove_of_ne _ apart
  · exact Table.get_insert_of_ne _ _ apart

theorem handleHs_hsBuf (l : Link S) (src : SocketAddr) (msg : List UInt8) (eph : S.Ephemeral) :
    (l.handleHs src msg eph).hsBuf = l.hsBuf := by
  unfold handleHs
  dsimp only
  split <;> rfl

theorem receiveCell_hsBuf (l : Link S) (src : SocketAddr) (data : List UInt8) : (l.receiveCell src data).hsBuf = l.hsBuf := by
  obtain ⟨tx, same | ⟨t, out, t', -, -, same⟩⟩ := l.receiveCell_cases src data
  · rw [same]
  · rw [same]

theorem receive_src (l : Link S) (src : SocketAddr) (datagram : List UInt8) (eph : S.Ephemeral) :
    (handed src l (.receive src datagram eph), (l.receive src datagram eph).hsBuf.get src) =
      gatherAll (l.hsBuf.get src) (((fragmentOf src (.receive src datagram eph : LinkEvent S)).toList).map readFrag) := by
  unfold handed fragmentOf message? receive
  by_cases fragment : isFragment (datagram.take hsDgram)
  · have taken := gatherHs_src l src (u16OfLe (((datagram.take hsDgram).drop 1).take 2))
      (u16OfLe (((datagram.take hsDgram).drop 3).take 2)) ((datagram.take hsDgram).drop 5)
    simp only [fragment, and_self, if_true, Option.toList_some, List.map_cons, List.map_nil, gatherAll, List.append_nil,
      takeFragment, readFrag, ← taken]
    split
    next msg l' came => rw [came, handleHs_hsBuf]
    next l' came => rw [came]
  · simp only [fragment, and_false, if_false, if_true, Option.toList_none, List.map_nil, gatherAll, Bool.false_eq_true]
    split
    · rfl
    · rw [receiveCell_hsBuf]

theorem receive_keeps_parts (l : Link S) {src sender : SocketAddr} (apart : src ≠ sender) (datagram : List UInt8)
    (eph : S.Ephemeral) :
    (l.receive sender datagram eph).hsBuf.get src = l.hsBuf.get src := by
  unfold receive
  dsimp only
  split
  · have kept := gatherHs_other l apart (u16OfLe (((datagram.take hsDgram).drop 1).take 2))
      (u16OfLe (((datagram.take hsDgram).drop 3).take 2)) ((datagram.take hsDgram).drop 5)
    split
    next msg l' came =>
      rw [handleHs_hsBuf, ← kept]
      exact congrArg (fun result => result.2.hsBuf.get src) came.symm
    next l' came =>
      rw [← kept]
      exact congrArg (fun result => result.2.hsBuf.get src) came.symm
  · split
    · rfl
    · rw [receiveCell_hsBuf]

theorem stepTask_hsBuf {l l' : Link S} {i : Nat} {eph : S.Ephemeral} {task : SendTask} {sent : Sent}
    (took : l.stepTask i eph task = some (l', sent)) : l'.hsBuf = l.hsBuf := by
  unfold stepTask at took
  repeat' split at took
  all_goals
    cases took
    try rfl

theorem refuseTask_hsBuf {l l' : Link S} {i : Nat} {eph : S.Ephemeral} {count : Nat} {reason : String} {task : SendTask}
    {sent : Sent}
    (took : l.refuseTask i eph count reason task = some (l', sent)) : l'.hsBuf = l.hsBuf := by
  unfold refuseTask at took
  repeat' split at took
  all_goals
    cases took
    try rfl

theorem stepRecv_hsBuf {l l' : Link S} {sent : Sent} (took : l.stepRecv = some (l', sent)) : l'.hsBuf = l.hsBuf := by
  unfold stepRecv at took
  repeat' split at took
  all_goals
    cases took
    try rfl

theorem Step.gathers {l l' : Link S} {event : LinkEvent S} (step : l.Step event l') (src : SocketAddr) :
    (handed src l event, l'.hsBuf.get src) = gatherAll (l.hsBuf.get src) ((fragmentOf src event).toList.map readFrag) := by
  have idle (same : l'.hsBuf = l.hsBuf) : (([] : List (List UInt8)), l'.hsBuf.get src) = gatherAll (l.hsBuf.get src) [] := by
    rw [same]
    rfl
  obtain ⟨sent, took⟩ := step
  cases event with
  | receive sender datagram eph =>
    simp only [Link.step] at took
    split at took
    next =>
      cases took
      by_cases same : sender = src
      · subst same
        exact receive_src l sender datagram eph
      · simp only [handed, fragmentOf, same, false_and, if_false, receive_keeps_parts l (Ne.symm same)]
        rfl
    next => cases took
  | step i eph =>
    obtain ⟨task, -, took⟩ := Option.bind_eq_some_iff.mp took
    exact idle (stepTask_hsBuf took)
  | refuse i eph count reason =>
    obtain ⟨task, -, took⟩ := Option.bind_eq_some_iff.mp took
    exact idle (refuseTask_hsBuf took)
  | handle => exact idle (stepRecv_hsBuf took)
  | setPeerStatic addr key =>
    cases took
    exact idle rfl
  | sendCell i addr cell =>
    simp only [Link.step] at took
    split at took
    · cases took
      exact idle rfl
    · cases took
  | deadline i =>
    simp only [Link.step] at took
    repeat' split at took
    all_goals
      cases took
      try exact idle rfl

/-- The messages of a run are those that the fragments it brings make, from the buffer at its start on. -/
theorem run_gathers {src : SocketAddr} {s t : Link S × List (List UInt8)} {events : List (LinkEvent S)}
    (run : Run (Logged Step (handed src)) s events t) :
    t.2 = s.2 ++ (gatherAll (s.1.hsBuf.get src) ((events.filterMap (fragmentOf src)).map readFrag)).1 ∧
      t.1.hsBuf.get src = (gatherAll (s.1.hsBuf.get src) ((events.filterMap (fragmentOf src)).map readFrag)).2 := by
  induction run with
  | nil => exact ⟨(List.append_nil _).symm, rfl⟩
  | @snoc t u events event _ last ih =>
    obtain ⟨msgs, buf⟩ := ih
    obtain ⟨came, left⟩ := Prod.mk.inj (last.1.gathers src)
    have single : [event].filterMap (fragmentOf src) = (fragmentOf src event).toList := by
      cases brought : fragmentOf src event <;> simp [brought]
    rw [List.filterMap_append, List.map_append, gatherAll_append, ← buf, single]
    exact ⟨by rw [last.2, msgs, came, List.append_assoc], left⟩

theorem handed_run {src : SocketAddr} {l l' : Link S} {events : List (LinkEvent S)} {msgs : List (List UInt8)}
    (run : Run (Logged Step (handed src)) (l, []) events (l', msgs)) :
    msgs = (gatherAll (l.hsBuf.get src) ((events.filterMap (fragmentOf src)).map readFrag)).1 := (run_gathers run).1

theorem run_pending {own : Octets 32} {events : List (LinkEvent S)} {l : Link S} (run : Run Step (bind S own) events l)
    (src : SocketAddr) : HsBuf.Pending (l.hsBuf.get src) := by
  obtain ⟨log, logged⟩ : ∃ log, Run (Logged Step (handed src)) (bind S own, []) events (l, log) := run.logged []
  rw [(run_gathers logged).2]
  refine (HsBuf.Pending.gatherAll (fun _ _ kept => (by cases kept)) (2 ^ 16) ?_).1
  intro frag member
  obtain ⟨data, brought, rfl⟩ := List.mem_map.mp member
  obtain ⟨event, -, isFragment⟩ := List.mem_filterMap.mp brought
  refine ⟨?_, Nat.le_of_lt (UInt16.toNat_lt _)⟩
  cases event with
  | receive sender datagram eph =>
    simp only [fragmentOf] at isFragment
    split at isFragment
    · cases isFragment
      simp only [readFrag, List.length_drop, List.length_take, hsDgram]
      omega
    · cases isFragment
  | sendCell | setPeerStatic | step | refuse | deadline | handle => cases isFragment

theorem exists_idle (l : Link S) (src : SocketAddr) (msgs : List (List UInt8)) : ∃ events l',
    Run (Logged Step (handed src)) (l, msgs) events (l', msgs) ∧ events.filterMap (fragmentOf src) = [] ∧ l'.recv = .idle := by
  have handles {l l' : Link S} {sent : Sent} (took : l.stepRecv = some (l', sent)) :
      Logged Step (handed src) (l, msgs) .handle (l', msgs) := ⟨⟨sent, took⟩, (List.append_nil _).symm⟩
  have stores (l : Link S) (sender : SocketAddr) (st : S.HandshakeState) (at_ : l.recv = .store sender st) : ∃ l' sent,
      l.stepRecv = some (l', sent) ∧ l'.recv = .idle := by
    simp only [stepRecv, at_]
    split <;> exact ⟨_, _, rfl, rfl⟩
  have learns (l : Link S) (sender : SocketAddr) (st : S.HandshakeState) (at_ : l.recv = .learn sender st) : ∃ l' sent,
      l.stepRecv = some (l', sent) ∧ l'.recv = .store sender st := by
    simp only [stepRecv, at_]
    split <;> exact ⟨_, _, rfl, rfl⟩
  cases now : l.recv with
  | idle => exact ⟨[], l, .nil _, rfl, now⟩
  | store sender st =>
    obtain ⟨l₁, _, took, idle⟩ := stores l sender st now
    exact ⟨[.handle], l₁, .single (handles took), rfl, idle⟩
  | learn sender st =>
    obtain ⟨l₁, _, took₁, next⟩ := learns l sender st now
    obtain ⟨l₂, _, took₂, idle⟩ := stores l₁ sender st next
    exact ⟨[.handle, .handle], l₂, (Run.single (handles took₁)).snoc (handles took₂), rfl, idle⟩
  | reply sender st msg =>
    obtain ⟨l₁, sent, took₁, next⟩ : ∃ l₁ sent, l.stepRecv = some (l₁, sent) ∧ l₁.recv = .learn sender st := by
      simp only [stepRecv, now]
      exact ⟨_, _, rfl, rfl⟩
    obtain ⟨l₂, _, took₂, next⟩ := learns l₁ sender st next
    obtain ⟨l₃, _, took₃, idle⟩ := stores l₂ sender st next
    exact ⟨[.handle, .handle, .handle], l₃, ((Run.single (handles took₁)).snoc (handles took₂)).snoc (handles took₃), rfl, idle⟩

theorem exists_run (eph : S.Ephemeral) (src : SocketAddr) (datagrams : List (List UInt8)) (l : Link S) (msgs : List (List UInt8))
    (fragments : ∀ d ∈ datagrams, d.length ≤ hsDgram ∧ isFragment d) :
    ∃ events l' msgs', Run (Logged Step (handed src)) (l, msgs) events (l', msgs') ∧ events.filterMap (fragmentOf src) = datagrams := by
  induction datagrams generalizing l msgs with
  | nil => exact ⟨[], l, msgs, .nil _, rfl⟩
  | cons d datagrams ih =>
    obtain ⟨fits, fragment⟩ := fragments d List.mem_cons_self
    have whole : d.take hsDgram = d := List.take_of_length_le fits
    obtain ⟨events, l₁, settled, quiet, idle⟩ := exists_idle l src msgs
    have received : Logged Step (handed src) (l₁, msgs) (.receive src d eph)
        (l₁.receive src d eph, msgs ++ handed src l₁ (.receive src d eph)) := by
      refine ⟨⟨{}, ?_⟩, rfl⟩
      simp only [Link.step, idle]
    obtain ⟨rest, l', msgs', run, brought⟩ := ih (l₁.receive src d eph) (msgs ++ handed src l₁ (.receive src d eph))
      fun other member => fragments other (List.mem_cons_of_mem _ member)
    refine ⟨(events ++ [.receive src d eph]) ++ rest, l', msgs', (settled.snoc received).trans run, ?_⟩
    simp [quiet, brought, fragmentOf, whole, fragment]

theorem fragment_fits {msg d : List UInt8} (member : d ∈ hsFragments msg) : d.length ≤ hsDgram ∧ isFragment d := by
  rw [hsFragments_eq] at member
  obtain ⟨i, -, rfl⟩ := List.mem_map.mp member
  have short := length_hsChunk_le msg i
  constructor
  · simp only [List.length_cons, List.length_append, length_u16Le, hsDgram]
    omega
  · exact decide_eq_true ⟨rfl, by simp; omega⟩

theorem frags_order {msg : List UInt8} {datagrams : List (List UInt8)} (order : datagrams.Perm (hsFragments msg)) :
    ∃ js : List Nat, js.Perm (List.range (hsCount msg)) ∧ datagrams.map readFrag = js.map (hsFrag msg) := by
  rw [hsFragments_eq] at order
  obtain ⟨js, same, range⟩ := (congrFun (congrFun (List.eq_map_comp_perm _) datagrams) _).mpr order
  refine ⟨js, range, ?_⟩
  rw [same, List.map_map]
  apply List.map_congr_left
  intro i _
  exact readFrag_datagram _ _ _

/-- Of all that may come from an address before, a message that comes in whole gets through, in whatever
order and among whatever else, exactly if it finds a buffer that it fills. -/
theorem recovers_iff [Nonempty S.Ephemeral] {own : Octets 32} {before : List (LinkEvent S)} {l : Link S}
    (run : Run Step (bind S own) before l) (src : SocketAddr) (msg : List UInt8) :
    (∀ after l' msgs, Run (Logged Step (handed src)) (l, []) after (l', msgs) →
      (after.filterMap (fragmentOf src)).Perm (hsFragments msg) → msgs = [msg]) ↔
    Recoverable ((l.hsBuf.get src).getD (UInt16.ofNat (hsCount msg), [])).1
      ((l.hsBuf.get src).getD (UInt16.ofNat (hsCount msg), [])).2 msg := by
  have pending := (run_pending run src).getD (UInt16.ofNat (hsCount msg))
  obtain ⟨eph⟩ := ‹Nonempty S.Ephemeral›
  constructor
  · intro recovers
    apply recoverable_of_gathers pending
    intro js order
    have come : (js.map fun i => 0x7F :: (u16Le (UInt16.ofNat (hsCount msg)) ++ (u16Le (UInt16.ofNat i) ++ hsChunk msg i))).Perm
        (hsFragments msg) := order.map _
    obtain ⟨after, l', msgs, run', brought⟩ := exists_run eph src _ l []
      fun d member => fragment_fits (come.mem_iff.mp member)
    have came := recovers after l' msgs run' (brought ▸ come)
    have same : (after.filterMap (fragmentOf src)).map readFrag = js.map (hsFrag msg) := by
      rw [brought, List.map_map]
      apply List.map_congr_left
      intro i _
      exact readFrag_datagram _ _ _
    rw [← gatherAll_begin, ← same, ← handed_run run', came]
  · intro recoverable after l' msgs run' order
    obtain ⟨js, range, same⟩ := frags_order order
    rw [handed_run run', same, gatherAll_begin]
    exact recoverable.gathers pending range

end Link

namespace PlainNoise

def answer : List UInt8 := secondMsg own owner 12 23

/-- A fragment of no message: the first of two, and empty. -/
def stray : List UInt8 := [0x7F, 2, 0, 0, 0]

theorem answer_fragments : hsFragments answer = [hsSingle answer] := hsFragments_short (by decide)

def parcel : List UInt8 := List.replicate 1500 7

def halved : List (LinkEvent snow) :=
  [.receive ⟨.v4 loopback, 9400⟩ stray (13 : UInt8), .receive door (0x7F :: 2 :: 0 :: 0 :: 0 :: hsChunk parcel 0) (14 : UInt8)]

/-- Sent once more, the parcel comes out whole. -/
theorem bind_recovers : (hsFragments parcel).length = 2 ∧ ∃ l, Run Link.Step (Link.bind snow own) halved l ∧
    l.hsBuf.get door = some (2, [(0, hsChunk parcel 0)]) ∧
    ∀ after l' msgs, Run (Logged Link.Step (Link.handed door)) (l, []) after (l', msgs) →
      (after.filterMap (Link.fragmentOf door)).Perm (hsFragments parcel) → msgs = [parcel] := by
  have nonempty : Nonempty snow.Ephemeral := ⟨(0 : UInt8)⟩
  have computed : (halved.foldlM next (Link.bind snow own)).map (fun l => l.hsBuf.get door) =
      some (some (2, [(0, hsChunk parcel 0)])) := by
    decide +kernel
  obtain ⟨l, done, kept⟩ := Option.map_eq_some_iff.mp computed
  have run : Run Link.Step (Link.bind snow own) halved l := (Run.of_foldlM done).mono fun _ _ _ => step_of_next
  have count : hsCount parcel = 2 := by
    rw [hsCount, parcel, List.length_replicate]
    decide
  have recoverable : Recoverable 2 [(0, hsChunk parcel 0)] parcel :=
    { numbered := by omega
      count := by
        rw [count]
        decide +kernel
      own := fun i within chunk known => by
        have first : i = 0 ∨ i = 1 := by omega
        rcases first with rfl | rfl
        · exact (Option.some.inj known).symm
        · cases known }
  refine ⟨by rw [hsFragments_eq, List.length_map, List.length_range, count], l, run, kept, (Link.recovers_iff run door parcel).mpr ?_⟩
  rw [kept]
  exact recoverable

/-- Behind the stray fragment the answer comes whole, and is not handed on. -/
theorem stray_holds_up : ∃ l l', Run Link.Step (Link.bind snow own) [.receive door stray (13 : UInt8)] l ∧
    Run (Logged Link.Step (Link.handed door)) (l, []) [.receive door (hsSingle answer) (14 : UInt8)] (l', []) ∧
    ([(.receive door (hsSingle answer) (14 : UInt8) : LinkEvent snow)].filterMap (Link.fragmentOf door)).Perm (hsFragments answer) := by
  obtain ⟨l, isL⟩ : ∃ l, l = (Link.bind snow own).receive door stray (13 : UInt8) := ⟨_, rfl⟩
  have idle : l.recv = .idle := by rw [isL]; rfl
  have nothing : Link.handed door l (.receive door (hsSingle answer) (14 : UInt8)) = [] := by
    rw [isL]
    decide +kernel
  have fragment : isFragment (hsSingle answer) = true ∧ (hsSingle answer).take hsDgram = hsSingle answer := by
    decide +kernel
  have brought : Link.fragmentOf door (.receive door (hsSingle answer) (14 : UInt8) : LinkEvent snow) = some (hsSingle answer) := by
    simp only [Link.fragmentOf, fragment, and_self, if_true]
  refine ⟨l, l.receive door (hsSingle answer) (14 : UInt8), .single ⟨{}, by rw [isL]; rfl⟩, .single ⟨⟨{}, ?_⟩, nothing.symm⟩, ?_⟩
  · simp only [Link.step, idle]
  · rw [answer_fragments, List.filterMap_cons_some brought]
    exact List.Perm.refl _

end PlainNoise
end Nbf.Net

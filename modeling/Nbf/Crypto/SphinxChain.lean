import Nbf.Crypto.Sphinx
import Nbf.Library.Run

/-! Headers that nobody built.

`process_header` trusts the hop count of what it is given only as far as the
length bears it out: the count fixes the length of a header that is passed on,
and the header that is passed on counts one hop less.
-/

set_option autoImplicit false

namespace Nbf.Crypto

open Nbf.Library

variable {C : Crates}

def hopCount (header : List UInt8) : Nat := (header[1]?.map UInt8.toNat).getD 0

/-- Some node peels the header and has the next one to pass on. -/
def Forwards (C : Crates) (header : List UInt8) (id : NodeIdentity C) (newHeader : List UInt8) : Prop :=
  ∃ tag kFwd kBwd nextId nextAddr, processHeader C id header = .ok (.relay tag kFwd kBwd nextId nextAddr newHeader)

/-- A header that has the length its hop count asks for: the fixed part, then an alpha slot and a layer for each hop. -/
structure Sized (header : List UInt8) (n : Nat) (tag : Octets 16) : Prop where
  version : header[0]? = some 1
  hops : hopCount header = n
  tagged : (header.drop 2).take 16 = tag.bytes
  size : header.length = 18 + n * 1200

theorem hopCount_le (header : List UInt8) : hopCount header ≤ 255 := by
  unfold hopCount
  cases header[1]? with
  | none => exact Nat.zero_le _
  | some n => exact Nat.le_of_lt_succ n.toNat_lt

theorem sized_cut {n : UInt8} (nonzero : n ≠ 0) (tag : Octets 16) {slots deeper : List UInt8}
    (alphas : slots.length = (n.toNat - 1) * 32) (layers : deeper.length = (n.toNat - 1) * layerLen) :
    Sized (1 :: (n - 1) :: (tag.bytes ++ (slots ++ deeper))) (n.toNat - 1) tag where
  version := rfl
  hops := by
    have positive : 1 ≤ n := UInt8.le_iff_toNat_le.mpr (Nat.pos_of_ne_zero fun zero => nonzero (UInt8.toNat_inj.mp zero))
    exact UInt8.toNat_sub_of_le _ _ positive
  tagged := List.take_left' tag.size
  size := by
    simp only [List.length_cons, List.length_append, Octets.length_bytes, alphas, layers, layerLen,
      layerInfoLen, ctLen]
    omega

theorem layerOutcome_sized {id : NodeIdentity C} {tag tag' : Octets 16} {n : UInt8} {ssX alpha kFwd kBwd : Octets 32}
    {body opened newHeader : List UInt8} {nextId : NodeId} {nextAddr : SocketAddr} (nonzero : n ≠ 0)
    (relayed : layerOutcome C id tag n ssX alpha body opened = .ok (.relay tag' kFwd kBwd nextId nextAddr newHeader)) :
    tag' = tag ∧ Sized newHeader (n.toNat - 1) tag := by
  unfold layerOutcome at relayed
  obtain ⟨inner, less, relayed⟩ := Checked.bind_eq_ok.mp relayed
  split at relayed
  · cases relayed
  next size =>
  rw [ne_eq, not_not] at size
  obtain ⟨_, -, relayed⟩ := Checked.bind_eq_ok.mp relayed
  obtain ⟨ip, -, relayed⟩ := Checked.bind_eq_ok.mp relayed
  obtain ⟨port, -, relayed⟩ := Checked.bind_eq_ok.mp relayed
  obtain ⟨ct, -, relayed⟩ := Checked.bind_eq_ok.mp relayed
  obtain ⟨ssKem, -, relayed⟩ := Checked.bind_eq_ok.mp relayed
  dsimp only at relayed
  split at relayed
  · cases relayed
  obtain ⟨rest, alphas, relayed⟩ := Checked.bind_eq_ok.mp relayed
  obtain ⟨deeper, layers, relayed⟩ := Checked.bind_eq_ok.mp relayed
  cases relayed
  have positive : 1 ≤ n.toNat := Nat.pos_of_ne_zero fun zero => nonzero (UInt8.toNat_inj.mp zero)
  rw [Checked.sub_of_le positive] at less
  obtain rfl := Checked.ok.inj less
  refine ⟨rfl, sized_cut nonzero tag ?_ ?_⟩
  · -- The slots are those of `body`, less the first.
    unfold Checked.slice at alphas
    split at alphas
    next within =>
      rw [length_flatMap_bytes, List.length_map, length_chunksExact, ← Checked.ok.inj alphas, List.length_take,
        List.length_drop]
      omega
    next => cases alphas
  · unfold Checked.sliceFrom at layers
    split at layers
    next within =>
      rw [← Checked.ok.inj layers, List.length_drop, size]
      omega
    next => cases layers

theorem processHeader_sized {id : NodeIdentity C} {header newHeader : List UInt8} {tag : Octets 16} {kFwd kBwd : Octets 32}
    {nextId : NodeId} {nextAddr : SocketAddr}
    (relayed : processHeader C id header = .ok (.relay tag kFwd kBwd nextId nextAddr newHeader)) :
    1 ≤ hopCount header ∧ Sized header (hopCount header) tag ∧ Sized newHeader (hopCount header - 1) tag := by
  unfold processHeader at relayed
  split at relayed
  · cases relayed
  next long =>
  obtain ⟨ver, verAt, relayed⟩ := Checked.bind_eq_ok.mp relayed
  obtain ⟨n, nAt, relayed⟩ := Checked.bind_eq_ok.mp relayed
  split at relayed
  · cases relayed
  next valid =>
  obtain ⟨one, nonzero⟩ := not_or.mp valid
  rw [ne_eq, not_not] at one
  obtain ⟨tag', tagAt, relayed⟩ := Checked.bind_eq_ok.mp relayed
  obtain ⟨body, bodyAt, relayed⟩ := Checked.bind_eq_ok.mp relayed
  split at relayed
  · cases relayed
  next size =>
  rw [ne_eq, not_not] at size
  obtain ⟨alpha, -, relayed⟩ := Checked.bind_eq_ok.mp relayed
  obtain ⟨tail, -, relayed⟩ := Checked.bind_eq_ok.mp relayed
  obtain ⟨blob, -, relayed⟩ := Checked.bind_eq_ok.mp relayed
  obtain ⟨opened, -, relayed⟩ := Checked.bind_eq_ok.mp relayed
  obtain ⟨rfl, next⟩ := layerOutcome_sized nonzero relayed
  have counted : hopCount header = n.toNat := by
    unfold hopCount
    rw [Checked.getElem?_of_byteAt nAt]
    rfl
  rw [counted]
  refine ⟨Nat.pos_of_ne_zero fun zero => nonzero (UInt8.toNat_inj.mp zero), ⟨?_, counted, ?_, ?_⟩, next⟩
  · rw [Checked.getElem?_of_byteAt verAt, one]
  · exact (Checked.bytes_of_arrayAt tagAt).symm
  · unfold Checked.sliceFrom at bodyAt
    rw [if_pos (Nat.not_lt.mp long)] at bodyAt
    rw [← Checked.ok.inj bodyAt, List.length_drop] at size
    simp only [hdrFixed, layerLen, layerInfoLen, ctLen] at size long
    omega

theorem processHeader_no_hops (id : NodeIdentity C) {header : List UInt8} (none : header[1]? = some 0) :
    processHeader C id header = .error .sphinx := by
  unfold processHeader
  by_cases short : header.length < hdrFixed
  · rw [if_pos short]
  · have first : 0 < header.length := Nat.lt_of_lt_of_le (by decide) (Nat.not_lt.mp short)
    have second : 1 < header.length := Nat.lt_of_lt_of_le (by decide) (Nat.not_lt.mp short)
    have count : header[1] = 0 := by
      rw [List.getElem?_eq_getElem second] at none
      exact Option.some.inj none
    simp only [if_neg short, Checked.byteAt, dif_pos first, dif_pos second, count, Checked.ok_bind, or_true, if_true]

theorem processHeader_hops {id : NodeIdentity C} {header : List UInt8} {outcome : ProcessOutcome}
    (processed : processHeader C id header = .ok outcome) : 1 ≤ hopCount header := by
  unfold processHeader at processed
  split at processed
  · cases processed
  obtain ⟨ver, -, processed⟩ := Checked.bind_eq_ok.mp processed
  obtain ⟨n, nAt, processed⟩ := Checked.bind_eq_ok.mp processed
  split at processed
  · cases processed
  next valid =>
  have nonzero : n ≠ 0 := (not_or.mp valid).2
  unfold hopCount
  rw [Checked.getElem?_of_byteAt nAt]
  exact Nat.pos_of_ne_zero fun zero => nonzero (UInt8.toNat_inj.mp zero)

theorem length_forwards_le {header last : List UInt8} {ids : List (NodeIdentity C)} (run : Run (Forwards C) header ids last) :
    ids.length + hopCount last ≤ hopCount header := by
  refine run.length_le (fun _ => True) hopCount (fun _ _ _ _ _ => trivial) (fun header id newHeader _ passed => ?_) trivial
  obtain ⟨_, _, _, _, _, relayed⟩ := passed
  obtain ⟨some, -, next⟩ := processHeader_sized relayed
  rw [next.hops]
  omega

/-- For headers of any origin and nodes in any order. A header that is passed on has 1200 bytes for each of its hops
beside the fixed part, and is passed on with one hop less, under the same tag; a header without hops is rejected; and so
no header is processed more often than it has hops. -/
theorem header_chain_ends :
    (∀ (id : NodeIdentity C) (header newHeader : List UInt8) (tag : Octets 16) (kFwd kBwd : Octets 32) (nextId : NodeId)
      (nextAddr : SocketAddr), processHeader C id header = .ok (.relay tag kFwd kBwd nextId nextAddr newHeader) →
      1 ≤ hopCount header ∧ Sized header (hopCount header) tag ∧ Sized newHeader (hopCount header - 1) tag) ∧
    (∀ (id : NodeIdentity C) (header : List UInt8), header[1]? = some 0 → processHeader C id header = .error .sphinx) ∧
    ∀ (header last : List UInt8) (ids : List (NodeIdentity C)), Run (Forwards C) header ids last →
      ids.length ≤ hopCount header ∧ hopCount header ≤ 255 ∧
      ∀ id outcome, processHeader C id last = .ok outcome → ids.length + 1 ≤ hopCount header := by
  refine ⟨fun id header newHeader tag kFwd kBwd nextId nextAddr => processHeader_sized,
    fun id header => processHeader_no_hops id, fun header last ids run => ?_⟩
  have bound := length_forwards_le run
  refine ⟨by omega, hopCount_le header, fun id outcome processed => ?_⟩
  have more := processHeader_hops processed
  omega

end Nbf.Crypto

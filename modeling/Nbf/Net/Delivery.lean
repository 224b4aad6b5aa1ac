import Nbf.Library.Lists
import Nbf.Net.Fragments

/-! The CREATE transport from end to end: a payload is cut into fragments, every
fragment travels in a cell of its own, and the payload is put together where they
arrive, in whatever order and however often.
-/

set_option autoImplicit false

namespace Nbf.Net

open Nbf.Library Nbf.Crypto

/-- A fragment on its way, under the cid of its cell. -/
structure Delivery where
  cid : UInt32
  frag : List UInt8
  deriving DecidableEq

/-- A fragment from one end to the other: encoded, decoded, parsed and put into the buffers. -/
def carry (map : Table UInt32 FragBuf) (d : Delivery) : Checked NetError (Option (List UInt8) × Table UInt32 FragBuf) := do
  let buf ← Cell.encode ⟨d.cid, .create, 0, d.frag⟩
  let cell ← Cell.decode buf.bytes
  let (total, idx, chunk) ← parseFrag cell.payload
  return reassemble cell.cid idx total chunk map

def carryAll (map : Table UInt32 FragBuf) : List Delivery → Checked NetError (List (Option (List UInt8)) × Table UInt32 FragBuf)
  | [] => .ok ([], map)
  | d :: rest => do
    let (out, map) ← carry map d
    let (outs, map) ← carryAll map rest
    return (out :: outs, map)

def Delivery.Fits (d : Delivery) : Prop := 4 ≤ d.frag.length ∧ d.frag.length ≤ cellData

def fragAt (payload : List UInt8) (i : Nat) : List UInt8 :=
  u16Le (fragCount payload) ++ (u16Le (UInt16.ofNat i) ++ fragChunk payload i)

theorem mem_fragment {payload frag : List UInt8} :
    frag ∈ fragment payload ↔ ∃ i < (fragCount payload).toNat, fragAt payload i = frag := by
  simp [fragment, fragAt]

theorem fragAt_inj {payload : List UInt8} {i j : Nat} (lt : i < (fragCount payload).toNat) (lt' : j < (fragCount payload).toNat)
    (same : fragAt payload i = fragAt payload j) : i = j := by
  have parsed := parseFrag_fragment (fragCount payload) (UInt16.ofNat i) (fragChunk payload i)
  rw [← fragAt, same, fragAt, parseFrag_fragment] at parsed
  have index : UInt16.ofNat j = UInt16.ofNat i := (Prod.mk.inj (Prod.mk.inj (Checked.ok.inj parsed)).2).1
  have small := (fragCount payload).toNat_lt
  have numbers := congrArg UInt16.toNat index
  rw [UInt16.toNat_ofNat_of_lt' (Nat.lt_trans lt' small), UInt16.toNat_ofNat_of_lt' (Nat.lt_trans lt small)] at numbers
  exact numbers.symm

/-! ## The cell around a fragment -/

def receive (map : Table UInt32 FragBuf) (d : Delivery) : Option (List UInt8) × Table UInt32 FragBuf :=
  match parseFrag d.frag with
  | .ok (total, idx, chunk) => reassemble d.cid idx total chunk map
  | _ => (none, map)

def receiveAll (map : Table UInt32 FragBuf) : List Delivery → List (Option (List UInt8)) × Table UInt32 FragBuf
  | [] => ([], map)
  | d :: rest =>
    let after := receiveAll (receive map d).2 rest
    ((receive map d).1 :: after.1, after.2)

theorem carry_eq {d : Delivery} (fits : d.Fits) (map : Table UInt32 FragBuf) : carry map d = .ok (receive map d) := by
  obtain ⟨buf, encoded⟩ := @Cell.encode_ok ⟨d.cid, .create, 0, d.frag⟩ fits.2
  rw [carry, encoded, Checked.ok_bind, Cell.decode_encode encoded, Checked.ok_bind, receive, parseFrag, if_neg (Nat.not_lt.mpr fits.1)]
  obtain ⟨total, totalAt⟩ : ∃ a, (Checked.arrayAt 2 d.frag 0 : Checked NetError _) = .ok a :=
    Checked.arrayAt_ok (Nat.le_trans (by decide) fits.1)
  obtain ⟨idx, idxAt⟩ : ∃ a, (Checked.arrayAt 2 d.frag 2 : Checked NetError _) = .ok a := Checked.arrayAt_ok fits.1
  simp only [totalAt, idxAt, Checked.sliceFrom, if_pos fits.1, Checked.ok_bind, Checked.pure_eq]

theorem carryAll_eq {deliveries : List Delivery} (fits : ∀ d ∈ deliveries, d.Fits) (map : Table UInt32 FragBuf) :
    carryAll map deliveries = .ok (receiveAll map deliveries) := by
  induction deliveries generalizing map with
  | nil => rfl
  | cons d rest ih =>
    obtain ⟨here, later⟩ := List.forall_mem_cons.mp fits
    rw [carryAll, carry_eq here, Checked.ok_bind]
    dsimp only
    rw [ih later, Checked.ok_bind, receiveAll]
    rfl

theorem fits_fragment {payload frag : List UInt8} (member : frag ∈ fragment payload) (cid : UInt32) :
    (⟨cid, frag⟩ : Delivery).Fits := by
  refine ⟨?_, length_fragment_le payload frag member⟩
  obtain ⟨i, -, rfl⟩ := mem_fragment.mp member
  simp only [fragAt, List.length_append, length_u16Le]
  omega

/-! ## The buffers -/

theorem receive_other {d : Delivery} {c : UInt32} (other : c ≠ d.cid) (map : Table UInt32 FragBuf) :
    (receive map d).2.get c = map.get c := by
  unfold receive
  split
  · exact reassemble_other other _ _ _ map
  · rfl

theorem receive_congr {d : Delivery} {map map' : Table UInt32 FragBuf} (same : map.get d.cid = map'.get d.cid) :
    (receive map d).2.get d.cid = (receive map' d).2.get d.cid := by
  unfold receive
  split
  · exact (reassemble_congr same _ _ _).2
  · exact same

theorem receiveAll_other {cid : UInt32} {deliveries : List Delivery} (others : ∀ d ∈ deliveries, d.cid ≠ cid)
    (map : Table UInt32 FragBuf) : (receiveAll map deliveries).2.get cid = map.get cid := by
  induction deliveries generalizing map with
  | nil => rfl
  | cons d rest ih =>
    obtain ⟨here, later⟩ := List.forall_mem_cons.mp others
    rw [receiveAll, ih later, receive_other (Ne.symm here)]

theorem receiveAll_without (cid : UInt32) (deliveries : List Delivery) {map map' : Table UInt32 FragBuf}
    (same : ∀ c, c ≠ cid → map.get c = map'.get c) (c : UInt32) (other : c ≠ cid) :
    (receiveAll map deliveries).2.get c = (receiveAll map' (deliveries.filter fun d => d.cid ≠ cid)).2.get c := by
  induction deliveries generalizing map map' with
  | nil => exact same c other
  | cons d rest ih =>
    rw [receiveAll]
    by_cases own : d.cid = cid
    · rw [List.filter_cons_of_neg (by simpa using own)]
      refine ih fun c' away => ?_
      rw [receive_other (own ▸ away), same c' away]
    · rw [List.filter_cons_of_pos (by simpa using own), receiveAll]
      refine ih fun c' away => ?_
      by_cases here : c' = d.cid
      · subst here
        exact receive_congr (same _ away)
      · rw [receive_other here, receive_other here, same c' away]

theorem receive_fragAt {payload : List UInt8} (cid : UInt32) (i : Nat) (map : Table UInt32 FragBuf) :
    receive map ⟨cid, fragAt payload i⟩ = reassemble cid (UInt16.ofNat i) (fragCount payload) (fragChunk payload i) map := by
  rw [receive, fragAt, parseFrag_fragment]

/-- As long as one fragment is missing, nothing is returned, and the buffer holds those that have come. -/
theorem receiveAll_held {payload : List UInt8} (numbered : Numbered payload) {cid : UInt32} {deliveries : List Delivery}
    (own : ∀ d ∈ deliveries, d.cid = cid → d.frag ∈ fragment payload) {i : Nat} (lt : i < (fragCount payload).toNat)
    (missing : ⟨cid, fragAt payload i⟩ ∉ deliveries) {map : Table UInt32 FragBuf} {S : Finset Nat}
    (within : S ⊆ Finset.range (fragCount payload).toNat) (outside : i ∉ S)
    (buffer : (map.get cid).getD (.fresh (fragCount payload)) = held payload S) :
    List.Forall₂ (fun d out => d.cid = cid → out = none) deliveries (receiveAll map deliveries).1 ∧
      ∃ S', (∀ j < (fragCount payload).toNat, ⟨cid, fragAt payload j⟩ ∈ deliveries → j ∈ S') ∧ S ⊆ S' ∧
        S' ⊆ Finset.range (fragCount payload).toNat ∧
        ((receiveAll map deliveries).2.get cid).getD (.fresh (fragCount payload)) = held payload S' := by
  induction deliveries generalizing map S with
  | nil => exact ⟨.nil, S, by simp, subset_refl S, within, buffer⟩
  | cons d rest ih =>
    obtain ⟨here, later⟩ := List.forall_mem_cons.mp own
    obtain ⟨notThis, still⟩ := not_or.mp (mt List.mem_cons.mpr missing)
    rw [receiveAll]
    by_cases mine : d.cid = cid
    · obtain ⟨c, frag⟩ := d
      obtain rfl : c = cid := mine
      obtain ⟨j, small, rfl⟩ := mem_fragment.mp (here rfl)
      have apart : i ≠ j := by
        rintro rfl
        exact notThis rfl
      have outside' : i ∉ insert j S := by simp [apart, outside]
      have partly : insert j S ≠ Finset.range (fragCount payload).toNat := by
        intro all
        rw [all] at outside'
        exact outside' (Finset.mem_range.mpr lt)
      rw [receive_fragAt, reassemble_held numbered within buffer small, if_neg partly]
      have stored : ((map.insert c (held payload (insert j S))).get c).getD (.fresh (fragCount payload)) =
          held payload (insert j S) := by rw [Table.get_insert_self, Option.getD_some]
      obtain ⟨outs, S', come, grown, within', buffer'⟩ := ih later still
        (Finset.insert_subset (Finset.mem_range.mpr small) within) outside' stored
      refine ⟨.cons (fun _ => rfl) outs, S', fun k lt' member => ?_, (Finset.subset_insert j S).trans grown, within', buffer'⟩
      rcases List.mem_cons.mp member with same | member
      · obtain rfl : k = j := fragAt_inj lt' small (congrArg Delivery.frag same)
        exact grown (Finset.mem_insert_self k S)
      · exact come k lt' member
    · have kept : ((receive map d).2.get cid).getD (.fresh (fragCount payload)) = held payload S := by
        rw [receive_other (Ne.symm mine), buffer]
      obtain ⟨outs, S', come, grown, within', buffer'⟩ := ih later still within outside kept
      refine ⟨.cons (fun same => absurd same mine) outs, S', fun k lt' member => ?_, grown, within', buffer'⟩
      rcases List.mem_cons.mp member with same | member
      · exact absurd (congrArg Delivery.cid same).symm mine
      · exact come k lt' member

/-- The transport loses nothing. Of a payload that can be numbered, all fragments arrive, in any order and any number of
times, among fragments of other cids, and no buffer was under its cid: then `reassemble` returns nothing for it up to the
fragment with which all have come, returns the payload there, and leaves no buffer under the cid, until a fragment is
repeated once more; and at any time the buffers of other cids are those of a run without the payload. -/
theorem carry_lossless {payload : List UInt8} (numbered : Numbered payload) {cid : UInt32} {map : Table UInt32 FragBuf}
    (fresh : map.get cid = none) {deliveries : List Delivery} (own : ∀ d ∈ deliveries, d.cid = cid → d.frag ∈ fragment payload)
    (others : ∀ d ∈ deliveries, d.cid ≠ cid → d.Fits) (complete : ∀ frag ∈ fragment payload, ⟨cid, frag⟩ ∈ deliveries) :
    (∃ before last after outs mid final, deliveries = before ++ ⟨cid, last⟩ :: after ∧
      (∃ frag ∈ fragment payload, ⟨cid, frag⟩ ∉ before) ∧ (∀ frag ∈ fragment payload, ⟨cid, frag⟩ ∈ before ++ [⟨cid, last⟩]) ∧
      carryAll map before = .ok (outs, mid) ∧ List.Forall₂ (fun d out => d.cid = cid → out = none) before outs ∧
      carry mid ⟨cid, last⟩ = .ok (some payload, final) ∧ final.get cid = none ∧
      ∀ later, later <+: after → (∀ d ∈ later, d.cid ≠ cid) →
        ∃ outs now, carryAll final later = .ok (outs, now) ∧ now.get cid = none) ∧
    ∀ sofar, sofar <+: deliveries → ∃ outs now outs' alone, carryAll map sofar = .ok (outs, now) ∧
      carryAll map (sofar.filter fun d => d.cid ≠ cid) = .ok (outs', alone) ∧ ∀ c, c ≠ cid → now.get c = alone.get c := by
  have fits : ∀ d ∈ deliveries, d.Fits := by
    intro d member
    by_cases mine : d.cid = cid
    · exact fits_fragment (own d member mine) d.cid
    · exact others d member mine
  constructor
  · have nonempty : fragAt payload 0 ∈ fragment payload := mem_fragment.mpr ⟨0, fragCount_pos numbered, rfl⟩
    obtain ⟨before, d, after, rfl, missing, all⟩ :=
      exists_turn (fun sofar => ∀ frag ∈ fragment payload, (⟨cid, frag⟩ : Delivery) ∈ sofar)
        (fun none => List.not_mem_nil (none _ nonempty)) complete
    simp only [not_forall] at missing
    obtain ⟨frag, member, absent⟩ := missing
    -- The fragment that was missing is the one that comes.
    obtain rfl : (⟨cid, frag⟩ : Delivery) = d := by
      rcases List.mem_append.mp (all frag member) with early | now
      · exact absurd early absent
      · exact List.mem_singleton.mp now
    obtain ⟨i, lt, rfl⟩ := mem_fragment.mp member
    have ownBefore : ∀ d ∈ before, d.cid = cid → d.frag ∈ fragment payload :=
      fun d early => own d (List.mem_append_left _ early)
    have empty : (map.get cid).getD (.fresh (fragCount payload)) = held payload ∅ := by
      rw [fresh, Option.getD_none, fresh_eq_held]
    obtain ⟨outs, S, come, -, within, buffer⟩ := receiveAll_held numbered ownBefore lt absent
      (Finset.empty_subset _) (Finset.notMem_empty i) empty
    have full : insert i S = Finset.range (fragCount payload).toNat := by
      refine (Finset.insert_subset (Finset.mem_range.mpr lt) within).antisymm fun j small => ?_
      rw [Finset.mem_range] at small
      rcases List.mem_append.mp (all _ (mem_fragment.mpr ⟨j, small, rfl⟩)) with early | now
      · exact Finset.mem_insert_of_mem (come j small early)
      · rw [fragAt_inj small lt (congrArg Delivery.frag (List.mem_singleton.mp now))]
        exact Finset.mem_insert_self i S
    have gone : ((receiveAll map before).2.remove cid).get cid = none := Table.get_remove_self ..
    refine ⟨before, fragAt payload i, after, _, _, (receiveAll map before).2.remove cid, rfl, ⟨_, member, absent⟩, all,
      carryAll_eq (fun d early => fits d (List.mem_append_left _ early)) map, outs, ?_, gone, fun later early away => ?_⟩
    · rw [carry_eq (fits_fragment member cid), receive_fragAt, reassemble_held numbered within buffer lt, if_pos full]
    · have fitsLater : ∀ d ∈ later, d.Fits := fun d member =>
        fits d (List.mem_append_right _ (List.mem_cons_of_mem _ (early.subset member)))
      exact ⟨_, _, carryAll_eq fitsLater _, (receiveAll_other away _).trans gone⟩
  · intro sofar early
    have fitsSofar : ∀ d ∈ sofar, d.Fits := fun d member => fits d (early.subset member)
    refine ⟨_, _, _, _, carryAll_eq fitsSofar map, carryAll_eq (fun d member => fitsSofar d (List.mem_of_mem_filter member)) map, ?_⟩
    exact receiveAll_without cid sofar fun _ _ => rfl

/-- A payload of two fragments that arrive last first, the last one twice, around one of another cid. -/
theorem two_fragments_arrive :
    let payload : List UInt8 := List.replicate 1269 7
    let deliveries : List Delivery := [⟨1, fragAt payload 1⟩, ⟨2, [1, 0, 0, 0, 5]⟩, ⟨1, fragAt payload 1⟩, ⟨1, fragAt payload 0⟩]
    ∃ before last after outs mid final, deliveries = before ++ ⟨1, last⟩ :: after ∧ carryAll .empty before = .ok (outs, mid) ∧
      carry mid ⟨1, last⟩ = .ok (some payload, final) := by
  intro payload deliveries
  have numbered : Numbered payload := by
    simp only [Numbered, payload, List.length_replicate]
    decide
  have count : (fragCount payload).toNat = 2 := by
    rw [toNat_fragCount numbered]
    simp only [payload, List.length_replicate]
    decide
  have member (i : Nat) (lt : i < 2) : fragAt payload i ∈ fragment payload := mem_fragment.mpr ⟨i, by rwa [count], rfl⟩
  have complete : ∀ frag ∈ fragment payload, (⟨1, frag⟩ : Delivery) ∈ deliveries := by
    intro frag inside
    obtain ⟨i, lt, rfl⟩ := mem_fragment.mp inside
    rw [count] at lt
    rcases Nat.le_one_iff_eq_zero_or_eq_one.mp (Nat.le_of_lt_succ lt) with rfl | rfl <;> simp [deliveries]
  have own : ∀ d ∈ deliveries, d.cid = 1 → d.frag ∈ fragment payload := by
    simp only [deliveries, List.forall_mem_cons]
    exact ⟨fun _ => member 1 (by decide), fun other => absurd other (by decide), fun _ => member 1 (by decide),
      fun _ => member 0 (by decide), by simp⟩
  have others : ∀ d ∈ deliveries, d.cid ≠ 1 → d.Fits := by
    simp only [deliveries, List.forall_mem_cons]
    exact ⟨fun other => absurd rfl other, fun _ => ⟨by decide, by decide⟩, fun other => absurd rfl other, fun other => absurd rfl other, by simp⟩
  obtain ⟨⟨before, last, after, outs, mid, final, split, -, -, early, -, done, -⟩, -⟩ :=
    carry_lossless numbered (Table.get_empty 1) own others complete
  exact ⟨before, last, after, outs, mid, final, split, early, done⟩

end Nbf.Net

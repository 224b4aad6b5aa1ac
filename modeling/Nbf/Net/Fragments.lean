import Mathlib.Data.Finset.Card
import Mathlib.Data.Finset.Range
import Nbf.Net.Cell

/-! Reassembly of the fragments of one payload.

`held payload S` is the buffer after exactly the fragments with an index in `S`
have arrived, in whatever order.
-/

set_option autoImplicit false

namespace Nbf.Net

open Nbf.Library Nbf.Crypto

theorem chunkLen_pos : 0 < chunkLen := by decide

theorem fragChunk_eq (payload : List UInt8) (i : Nat) :
    fragChunk payload i = (payload.drop (i * chunkLen)).take chunkLen := by
  rw [fragChunk, List.take_eq_take_iff, List.length_drop, Nat.add_mul]
  omega

theorem length_fragChunk_le (payload : List UInt8) (i : Nat) : (fragChunk payload i).length ≤ chunkLen := by
  rw [fragChunk_eq]
  exact List.length_take_le _ _

theorem flatten_chunks (payload : List UInt8) (n : Nat) :
    ((List.range n).map (fragChunk payload)).flatten = payload.take (n * chunkLen) := by
  induction n with
  | zero => simp
  | succ n ih =>
    rw [List.range_succ, List.map_append, List.flatten_append, ih, Nat.add_mul, Nat.one_mul, List.take_add]
    simp [fragChunk_eq]

/-- A payload the 16-bit fragment counter can number. -/
def Numbered (payload : List UInt8) : Prop := payload.length ≤ 65535 * chunkLen

theorem toNat_fragCount {payload : List UInt8} (numbered : Numbered payload) :
    (fragCount payload).toNat = max ((payload.length + (chunkLen - 1)) / chunkLen) 1 := by
  have count : (payload.length + (chunkLen - 1)) / chunkLen ≤ 65535 := by
    rw [Nat.div_le_iff_le_mul_add_pred chunkLen_pos]
    have := chunkLen_pos
    simp only [Numbered] at numbered
    omega
  rw [fragCount, UInt16.toNat_ofNat']
  exact Nat.mod_eq_of_lt (by omega)

theorem fragCount_pos {payload : List UInt8} (numbered : Numbered payload) : 0 < (fragCount payload).toNat := by
  rw [toNat_fragCount numbered]
  omega

theorem flatten_all {payload : List UInt8} (numbered : Numbered payload) :
    ((List.range (fragCount payload).toNat).map (fragChunk payload)).flatten = payload := by
  rw [flatten_chunks, toNat_fragCount numbered, List.take_of_length_le]
  -- Rounding the count up covers the last, shorter chunk.
  have covered : payload.length ≤ (payload.length + (chunkLen - 1)) / chunkLen * chunkLen := by
    have := Nat.div_add_mod (payload.length + (chunkLen - 1)) chunkLen
    have := Nat.mod_lt (payload.length + (chunkLen - 1)) chunkLen_pos
    have := chunkLen_pos
    rw [Nat.mul_comm]
    omega
  exact covered.trans (Nat.mul_le_mul_right _ (Nat.le_max_left _ _))

theorem length_fragment_le (payload frag : List UInt8) (member : frag ∈ fragment payload) :
    frag.length ≤ cellData := by
  obtain ⟨i, -, rfl⟩ := List.mem_map.mp member
  have bound := length_fragChunk_le payload i
  simp only [chunkLen, cellData, cellLen, cellHdr, List.length_append, length_u16Le] at bound ⊢
  omega

theorem length_fragment (payload : List UInt8) : (fragment payload).length = (fragCount payload).toNat := by
  simp [fragment]

theorem getElem?_fragment {payload : List UInt8} {i : Nat} (lt : i < (fragCount payload).toNat) :
    (fragment payload)[i]? =
      some (u16Le (fragCount payload) ++ (u16Le (UInt16.ofNat i) ++ fragChunk payload i)) := by
  simp [fragment, lt]

theorem parseFrag_fragment (cnt i : UInt16) (chunk : List UInt8) :
    parseFrag (u16Le cnt ++ (u16Le i ++ chunk)) = .ok (cnt, i, chunk) := by
  have total : (Checked.arrayAt 2 (u16Le cnt ++ (u16Le i ++ chunk)) 0 : Checked NetError _) =
      .ok ⟨u16Le cnt, length_u16Le _⟩ :=
    Checked.arrayAt_head ⟨u16Le cnt, length_u16Le _⟩
  have idx : (Checked.arrayAt 2 (u16Le cnt ++ (u16Le i ++ chunk)) 2 : Checked NetError _) =
      .ok ⟨u16Le i, length_u16Le _⟩ :=
    Checked.arrayAt_append ⟨u16Le i, length_u16Le _⟩ (length_u16Le _).symm
  have rest : (Checked.sliceFrom (u16Le cnt ++ (u16Le i ++ chunk)) 4 : Checked NetError _) = .ok chunk := by
    rw [← List.append_assoc]
    exact Checked.sliceFrom_append (by simp)
  have long : ¬ (u16Le cnt ++ (u16Le i ++ chunk)).length < 4 := by simp; omega
  rw [parseFrag, if_neg long]
  simp only [total, idx, rest, Checked.ok_bind, u16OfLe_u16Le, Checked.pure_eq]

def held (payload : List UInt8) (S : Finset Nat) : FragBuf :=
  ⟨fragCount payload, (List.range (fragCount payload).toNat).map fun i =>
    if i ∈ S then some (fragChunk payload i) else none, S.card⟩

theorem fresh_eq_held (payload : List UInt8) : FragBuf.fresh (fragCount payload) = held payload ∅ := by
  simp [FragBuf.fresh, held, List.map_const']

theorem put_held {payload : List UInt8} {S : Finset Nat} {i : Nat} (lt : i < (fragCount payload).toNat) :
    (held payload S).put (UInt16.ofNat i) (fragCount payload) (fragChunk payload i) = held payload (insert i S) := by
  have small := (fragCount payload).toNat_lt
  have idx : (UInt16.ofNat i).toNat = i := by
    rw [UInt16.toNat_ofNat']
    exact Nat.mod_eq_of_lt (by omega)
  have slot : (held payload S).got[i]? = some (if i ∈ S then some (fragChunk payload i) else none) := by
    simp [held, lt]
  unfold FragBuf.put
  simp only [show (held payload S).total = fragCount payload from rfl, ne_eq, not_true_eq_false, if_false, idx, slot]
  by_cases member : i ∈ S
  · simp [member]
  · simp only [member, if_false, if_true, held, Finset.card_insert_of_notMem member]
    congr 1
    apply List.ext_getElem
    · simp
    · intro j _ _
      simp only [List.getElem_set, List.getElem_map, List.getElem_range, Finset.mem_insert]
      split
      next same => simp [same]
      next other => simp [Ne.symm other]

theorem joinSlots_some (chunks : List (List UInt8)) : joinSlots (chunks.map some) = some chunks.flatten := by
  induction chunks with
  | nil => rfl
  | cons chunk rest ih => simp [joinSlots, ih]

theorem joinSlots_held {payload : List UInt8} (numbered : Numbered payload) :
    joinSlots (held payload (Finset.range (fragCount payload).toNat)).got = some payload := by
  have full : (held payload (Finset.range (fragCount payload).toNat)).got =
      ((List.range (fragCount payload).toNat).map (fragChunk payload)).map some := by
    rw [held, List.map_map]
    apply List.map_congr_left
    intro i member
    rw [if_pos (Finset.mem_range.mpr (List.mem_range.mp member))]
    rfl
  rw [full, joinSlots_some, flatten_all numbered]

/-- One more fragment of a payload of which `S` has arrived: the payload when it was the last one
missing, otherwise the buffer with it added. -/
theorem reassemble_held {payload : List UInt8} (numbered : Numbered payload) {cid : UInt32}
    {map : Table UInt32 FragBuf} {S : Finset Nat} (within : S ⊆ Finset.range (fragCount payload).toNat)
    (here : (map.get cid).getD (.fresh (fragCount payload)) = held payload S) {i : Nat}
    (lt : i < (fragCount payload).toNat) :
    reassemble cid (UInt16.ofNat i) (fragCount payload) (fragChunk payload i) map =
      if insert i S = Finset.range (fragCount payload).toNat then (some payload, map.remove cid)
      else (none, map.insert cid (held payload (insert i S))) := by
  have within' : insert i S ⊆ Finset.range (fragCount payload).toNat :=
    Finset.insert_subset (Finset.mem_range.mpr lt) within
  rw [reassemble, here, put_held lt]
  by_cases all : insert i S = Finset.range (fragCount payload).toNat
  · rw [if_pos all, all, if_pos (by simp [held]), joinSlots_held numbered]
  -- The count tells whether all have arrived, since no index is counted twice.
  · have fewer : (held payload (insert i S)).count ≠ (held payload (insert i S)).total.toNat := by
      intro same
      refine all (Finset.eq_of_subset_of_card_le within' ?_)
      rw [Finset.card_range]
      exact Nat.le_of_eq same.symm
    rw [if_neg all]
    simp only [fewer, if_false]

theorem reassemble_other {cid c : UInt32} (other : c ≠ cid) (idx total : UInt16) (chunk : List UInt8) (map : Table UInt32 FragBuf) :
    (reassemble cid idx total chunk map).2.get c = map.get c := by
  unfold reassemble
  dsimp only
  split
  · split <;> simp [other]
  · simp [other]

theorem reassemble_congr {cid : UInt32} {map map' : Table UInt32 FragBuf} (same : map.get cid = map'.get cid) (idx total : UInt16)
    (chunk : List UInt8) : (reassemble cid idx total chunk map).1 = (reassemble cid idx total chunk map').1 ∧
      (reassemble cid idx total chunk map).2.get cid = (reassemble cid idx total chunk map').2.get cid := by
  unfold reassemble
  rw [same]
  dsimp only
  split
  · split <;> simp
  · simp

/-! ## What every buffer satisfies -/

/-- One slot for each fragment of the payload, and the number of those that are filled. -/
structure FragBuf.Counted (fb : FragBuf) : Prop where
  slots : fb.got.length = fb.total.toNat
  filled : fb.count = fb.got.countP Option.isSome

structure FragBuf.Waiting (fb : FragBuf) : Prop extends fb.Counted where
  short : fb.count < fb.total.toNat

namespace FragBuf

theorem fresh_counted (total : UInt16) : (fresh total).Counted := by
  constructor
  · simp [fresh]
  · simp [fresh, List.countP_replicate]

theorem Counted.fill {fb : FragBuf} (counted : fb.Counted) {i : Nat} {chunk : List UInt8} (free : fb.got[i]? = some none) :
    ({ fb with got := fb.got.set i (some chunk), count := fb.count + 1 } : FragBuf).Counted := by
  obtain ⟨within, empty⟩ := List.getElem?_eq_some_iff.mp free
  constructor
  · rw [List.length_set]
    exact counted.slots
  · rw [List.countP_set within, empty, counted.filled]
    simp

theorem Counted.put {fb : FragBuf} (counted : fb.Counted) (idx total : UInt16) (chunk : List UInt8) :
    (fb.put idx total chunk).Counted := by
  -- A changed total leaves a fresh buffer, which counts as well.
  have start : (if fb.total ≠ total then fresh total else fb).Counted := by
    split
    · exact fresh_counted total
    · exact counted
  unfold FragBuf.put
  dsimp only
  generalize (if fb.total ≠ total then fresh total else fb) = begun at start ⊢
  split
  next free => exact start.fill free
  next => exact start

theorem Counted.count_le {fb : FragBuf} (counted : fb.Counted) : fb.count ≤ fb.total.toNat := by
  rw [counted.filled, ← counted.slots]
  exact List.countP_le_length

theorem Counted.full {fb : FragBuf} (counted : fb.Counted) (complete : fb.count = fb.total.toNat) :
    ∀ slot ∈ fb.got, slot.isSome := by
  rw [counted.filled, ← counted.slots] at complete
  exact List.countP_eq_length.mp complete

end FragBuf

theorem joinSlots_full {got : List (Option (List UInt8))} (full : ∀ slot ∈ got, slot.isSome) :
    ∃ out, joinSlots got = some out := by
  induction got with
  | nil => exact ⟨[], rfl⟩
  | cons slot rest ih =>
    obtain ⟨chunk, rfl⟩ := Option.isSome_iff_exists.mp (full slot List.mem_cons_self)
    obtain ⟨out, joined⟩ := ih fun slot member => full slot (List.mem_cons_of_mem _ member)
    exact ⟨chunk ++ out, by rw [joinSlots, joined, Option.map_some]⟩

def receiving (map : Table UInt32 FragBuf) (cid : UInt32) (fragIdx total : UInt16) (chunk : List UInt8) : FragBuf :=
  ((map.get cid).getD (.fresh total)).put fragIdx total chunk

def AllWaiting (map : Table UInt32 FragBuf) : Prop := ∀ cid fb, map.get cid = some fb → fb.Waiting

namespace AllWaiting

theorem receiving_counted {map : Table UInt32 FragBuf} (waiting : AllWaiting map) (cid : UInt32) (idx total : UInt16)
    (chunk : List UInt8) : (receiving map cid idx total chunk).Counted := by
  apply FragBuf.Counted.put
  cases here : map.get cid with
  | none => exact FragBuf.fresh_counted total
  | some fb => exact (waiting cid fb here).toCounted

/-- The completion branch joins every slot and takes the buffer out. -/
theorem completes {map : Table UInt32 FragBuf} (waiting : AllWaiting map) {cid : UInt32} {idx total : UInt16} {chunk : List UInt8}
    (complete : (receiving map cid idx total chunk).count = (receiving map cid idx total chunk).total.toNat) :
    ∃ out, joinSlots (receiving map cid idx total chunk).got = some out ∧
      reassemble cid idx total chunk map = (some out, map.remove cid) := by
  obtain ⟨out, joined⟩ := joinSlots_full ((waiting.receiving_counted cid idx total chunk).full complete)
  refine ⟨out, joined, ?_⟩
  unfold receiving at complete joined
  simp only [reassemble, if_pos complete, joined]

theorem keeps {map : Table UInt32 FragBuf} (waiting : AllWaiting map) {cid : UInt32} {idx total : UInt16} {chunk : List UInt8}
    (short : (receiving map cid idx total chunk).count ≠ (receiving map cid idx total chunk).total.toNat) :
    reassemble cid idx total chunk map = (none, map.insert cid (receiving map cid idx total chunk)) ∧
      (receiving map cid idx total chunk).Waiting := by
  have counted := waiting.receiving_counted cid idx total chunk
  refine ⟨?_, ⟨counted, Nat.lt_of_le_of_ne counted.count_le short⟩⟩
  unfold receiving at short ⊢
  simp only [reassemble, if_neg short]

theorem step {map : Table UInt32 FragBuf} (waiting : AllWaiting map) (cid : UInt32) (idx total : UInt16) (chunk : List UInt8) :
    AllWaiting (reassemble cid idx total chunk map).2 := by
  intro other fb here
  by_cases complete : (receiving map cid idx total chunk).count = (receiving map cid idx total chunk).total.toNat
  · obtain ⟨out, -, result⟩ := waiting.completes complete
    rw [result] at here
    exact waiting other fb (Table.get_remove_some here)
  · obtain ⟨result, short⟩ := waiting.keeps complete
    rw [result] at here
    rcases Table.get_insert_some here with ⟨-, rfl⟩ | ⟨-, old⟩
    · exact short
    · exact waiting other fb old

end AllWaiting

structure FragCall where
  cid : UInt32
  fragIdx : UInt16
  total : UInt16
  chunk : List UInt8

def reassembleAll (calls : List FragCall) (map : Table UInt32 FragBuf) : Table UInt32 FragBuf :=
  calls.foldl (fun map call => (reassemble call.cid call.fragIdx call.total call.chunk map).2) map

theorem AllWaiting.run {map : Table UInt32 FragBuf} (waiting : AllWaiting map) (calls : List FragCall) :
    AllWaiting (reassembleAll calls map) := by
  induction calls generalizing map with
  | nil => exact waiting
  | cons call calls ih => exact ih (waiting.step call.cid call.fragIdx call.total call.chunk)

theorem allWaiting_empty : AllWaiting .empty := by
  intro cid fb here
  cases here

/-- After any calls from an empty map every buffer left has one slot for each fragment, the right
count and a fragment to wait for. So whenever the next call completes a buffer, all its slots are
filled, draining them gives the payload, and the buffer is gone. -/
theorem reassemble_counts (calls : List FragCall) :
    (∀ cid fb, (reassembleAll calls .empty).get cid = some fb →
      fb.got.length = fb.total.toNat ∧ fb.count = fb.got.countP Option.isSome ∧ fb.count < fb.total.toNat) ∧
    ∀ cid idx total chunk,
      let fb := receiving (reassembleAll calls .empty) cid idx total chunk
      fb.count = fb.total.toNat → (∀ slot ∈ fb.got, slot.isSome) ∧
        ∃ out, joinSlots fb.got = some out ∧
          reassemble cid idx total chunk (reassembleAll calls .empty) = (some out, (reassembleAll calls .empty).remove cid) := by
  have waiting := allWaiting_empty.run calls
  constructor
  · intro cid fb here
    have short := waiting cid fb here
    exact ⟨short.slots, short.filled, short.short⟩
  · intro cid idx total chunk fb complete
    exact ⟨(waiting.receiving_counted cid idx total chunk).full complete, waiting.completes complete⟩

end Nbf.Net

import Nbf.Net.Ownership

/-! CREATE fragments of two peers at one node.

The buffer of a half-received header is found by the cid, whoever sends. The
streams of two peers are put together as if each were alone where their cids
differ, or where one of them comes in whole before the other begins.
-/

set_option autoImplicit false

namespace Nbf.Net

open Nbf.Library Nbf.Crypto

variable {C : Crates}

/-- What one peer sends: the fragments of its own header, under its own cid. -/
structure CreateStream where
  src : SocketAddr
  cid : UInt32
  header : List UInt8
  numbered : Numbered header

namespace CreateStream

def count (stream : CreateStream) : Nat := (fragCount stream.header).toNat

def cell (stream : CreateStream) (i : Nat) : Cell := ⟨stream.cid, .create, 0, (fragment stream.header).getD i []⟩

/-- The header, by the peer it came from. -/
def done (stream : CreateStream) : SocketAddr × List UInt8 := (stream.src, stream.header)

theorem count_pos (stream : CreateStream) : 0 < stream.count := fragCount_pos stream.numbered

end CreateStream

structure Arrival where
  peer : Bool
  index : Nat
  lookup : Lookup

namespace Node

section

variable (streams : Bool → CreateStream)

def arrive (node : Node C) (a : Arrival) : Node C :=
  (node.handleCell a.lookup (streams a.peer).src ((streams a.peer).cell a.index)).1

/-- The headers that are put together on the way, by the peer whose fragment was the last one. -/
def reassembled (node : Node C) : List Arrival → List (SocketAddr × List UInt8)
  | [] => []
  | a :: rest => (node.gather ((streams a.peer).cell a.index)).1.toList.map (fun header => ((streams a.peer).src, header)) ++
      (node.arrive streams a).reassembled rest

end

variable {streams : Bool → CreateStream}

theorem reassembled_append (node : Node C) (early late : List Arrival) :
    node.reassembled streams (early ++ late) =
      node.reassembled streams early ++ (early.foldl (arrive streams) node).reassembled streams late := by
  induction early generalizing node with
  | nil => rfl
  | cons a rest ih => rw [List.cons_append, reassembled, reassembled, ih, List.append_assoc, List.foldl_cons]

theorem handleCreate_createFrags (node : Node C) (lookup : Lookup) (src : SocketAddr) (cell : Cell) :
    (node.handleCreate lookup src cell).1.createFrags = (node.gather cell).2 := by
  unfold handleCreate
  generalize node.gather cell = gathered
  obtain ⟨full, frags⟩ := gathered
  cases full with
  | none => rfl
  | some header =>
    dsimp only
    cases processHeader C node.identity header with
    | ok outcome => cases outcome <;> rfl
    | error _ => rfl
    | panic => rfl

variable (streams) in
theorem arrive_createFrags (node : Node C) (a : Arrival) :
    (node.arrive streams a).createFrags = (node.gather ((streams a.peer).cell a.index)).2 :=
  node.handleCreate_createFrags a.lookup _ _

theorem gather_congr {node node' : Node C} {cell : Cell} (same : node'.createFrags.get cell.cid = node.createFrags.get cell.cid) :
    (node'.gather cell).1 = (node.gather cell).1 ∧
      (node'.gather cell).2.get cell.cid = (node.gather cell).2.get cell.cid := by
  unfold gather
  split
  · exact reassemble_congr same _ _ _
  · exact ⟨rfl, same⟩

theorem gather_other (node : Node C) {cell : Cell} {cid : UInt32} (other : cid ≠ cell.cid) :
    (node.gather cell).2.get cid = node.createFrags.get cid := by
  unfold gather
  split
  · exact reassemble_other other _ _ _ _
  · rfl

/-- Fragments of one peer at a buffer that holds others of it already: the header is complete when
all have come, and then the buffer is free again. -/
theorem reassembled_held (x : Bool) (node : Node C) {S : Finset Nat} (arrivals : List Arrival)
    (own : ∀ a ∈ arrivals, a.peer = x) (nodup : (arrivals.map Arrival.index).Nodup)
    (more : ∀ a ∈ arrivals, a.index < (streams x).count ∧ a.index ∉ S)
    (within : S ⊆ Finset.range (streams x).count) (partly : S.card < (streams x).count)
    (buffer : (node.createFrags.get (streams x).cid).getD (.fresh (fragCount (streams x).header)) =
      held (streams x).header S) :
    node.reassembled streams arrivals =
        (if S.card + arrivals.length = (streams x).count then [(streams x).done] else []) ∧
      (S.card + arrivals.length = (streams x).count →
        (arrivals.foldl (arrive streams) node).createFrags.get (streams x).cid = none) := by
  -- On the fragments that come; the set that has arrived grows with each.
  induction arrivals generalizing node S with
  | nil =>
    have missing : ¬ S.card + ([] : List Arrival).length = (streams x).count := by
      rw [List.length_nil]
      omega
    rw [if_neg missing]
    exact ⟨rfl, fun full => absurd full missing⟩
  | cons a rest ih =>
    obtain ⟨once, nodup'⟩ := List.nodup_cons.mp nodup
    obtain ⟨lt, new⟩ := more a List.mem_cons_self
    obtain rfl : a.peer = x := own a List.mem_cons_self
    have frag_j : (fragment (streams a.peer).header)[a.index]? = some ((fragment (streams a.peer).header).getD a.index []) := by
      rw [List.getD_eq_getElem?_getD, getElem?_fragment lt, Option.getD_some]
    have gathered : node.gather ((streams a.peer).cell a.index) =
        if insert a.index S = Finset.range (streams a.peer).count
        then (some (streams a.peer).header, node.createFrags.remove (streams a.peer).cid)
        else (none, node.createFrags.insert (streams a.peer).cid (held (streams a.peer).header (insert a.index S))) :=
      node.gather_held (streams a.peer).numbered (streams a.peer).cid within buffer lt frag_j
    have card := Finset.card_insert_of_notMem new
    have within' : insert a.index S ⊆ Finset.range (streams a.peer).count :=
      Finset.insert_subset (Finset.mem_range.mpr lt) within
    have after := node.arrive_createFrags streams a
    rw [reassembled, List.foldl_cons, List.length_cons]
    rw [gathered] at after ⊢
    by_cases full : insert a.index S = Finset.range (streams a.peer).count
    · -- Nothing can come after the last one.
      obtain rfl : rest = [] := by
        refine List.eq_nil_iff_forall_not_mem.mpr fun b member => ?_
        obtain ⟨below, apart⟩ := more b (List.mem_cons_of_mem _ member)
        rcases Finset.mem_insert.mp (full ▸ Finset.mem_range.mpr below) with same | old
        · exact once (same ▸ List.mem_map_of_mem member)
        · exact apart old
      have total : S.card + (([] : List Arrival).length + 1) = (streams a.peer).count := by
        have size := congrArg Finset.card full
        rw [card, Finset.card_range] at size
        exact size
      rw [if_pos full] at after ⊢
      rw [if_pos total]
      exact ⟨rfl, fun _ => by rw [List.foldl_nil, after]; exact Table.get_remove_self ..⟩
    · have fewer : (insert a.index S).card < (streams a.peer).count := by
        have size := Finset.card_lt_card (Finset.ssubset_iff_subset_ne.mpr ⟨within', full⟩)
        rwa [Finset.card_range] at size
      rw [if_neg full] at after ⊢
      have buffer' : ((node.arrive streams a).createFrags.get (streams a.peer).cid).getD
          (.fresh (fragCount (streams a.peer).header)) = held (streams a.peer).header (insert a.index S) := by
        rw [after, Table.get_insert_self, Option.getD_some]
      have later := ih (node.arrive streams a) (fun b member => own b (List.mem_cons_of_mem _ member)) nodup'
        (fun b member => ?_) within' fewer buffer'
      · rw [card, Nat.add_assoc, Nat.add_comm 1] at later
        exact later
      · obtain ⟨below, apart⟩ := more b (List.mem_cons_of_mem _ member)
        refine ⟨below, fun old => ?_⟩
        rcases Finset.mem_insert.mp old with same | old
        · exact once (same ▸ List.mem_map_of_mem member)
        · exact apart old

theorem reassembled_alone (x : Bool) (node : Node C) {arrivals : List Arrival} (own : ∀ a ∈ arrivals, a.peer = x)
    (nodup : (arrivals.map Arrival.index).Nodup) (below : ∀ a ∈ arrivals, a.index < (streams x).count)
    (free : node.createFrags.get (streams x).cid = none) :
    node.reassembled streams arrivals = (if arrivals.length = (streams x).count then [(streams x).done] else []) ∧
      (arrivals.length = (streams x).count →
        (arrivals.foldl (arrive streams) node).createFrags.get (streams x).cid = none) := by
  have started := reassembled_held (S := ∅) x node arrivals own nodup (fun a member => ⟨below a member, by simp⟩)
    (Finset.empty_subset _) (streams x).count_pos (by rw [free, Option.getD_none, fresh_eq_held])
  simpa only [Finset.card_empty, Nat.zero_add] using started

/-- Where the cids differ, what becomes of the fragments of one peer does not depend on the other. -/
theorem reassembled_apart (apart : (streams false).src ≠ (streams true).src)
    (other : (streams false).cid ≠ (streams true).cid) (x : Bool) (node node' : Node C)
    (same : node'.createFrags.get (streams x).cid = node.createFrags.get (streams x).cid) (arrivals : List Arrival) :
    (node.reassembled streams arrivals).filter (fun entry => entry.1 = (streams x).src) =
      node'.reassembled streams (arrivals.filter fun a => a.peer = x) := by
  have differ (y : Bool) (ne : y ≠ x) : (streams y).src ≠ (streams x).src ∧ (streams x).cid ≠ (streams y).cid := by
    cases x <;> cases y
    · exact absurd rfl ne
    · exact ⟨apart.symm, other⟩
    · exact ⟨apart, other.symm⟩
    · exact absurd rfl ne
  induction arrivals generalizing node node' with
  | nil => rfl
  | cons a rest ih =>
    rw [reassembled, List.filter_append, List.filter_cons]
    have after := node.arrive_createFrags streams a
    by_cases mine : a.peer = x
    · subst mine
      obtain ⟨result, left⟩ : (node'.gather ((streams a.peer).cell a.index)).1 = _ ∧ _ := gather_congr same
      have after' := node'.arrive_createFrags streams a
      rw [if_pos (by simp), reassembled, result,
        ih (node.arrive streams a) (node'.arrive streams a) (by rw [after, after']; exact left)]
      congr 1
      rw [List.filter_eq_self]
      intro entry member
      obtain ⟨header, -, rfl⟩ := List.mem_map.mp member
      exact decide_eq_true rfl
    · obtain ⟨src, cid⟩ := differ a.peer mine
      rw [if_neg (by simpa using mine), ih (node.arrive streams a) node' (by rw [after, gather_other node cid, same])]
      have none : List.filter (fun entry => decide (entry.1 = (streams x).src))
          ((node.gather ((streams a.peer).cell a.index)).1.toList.map fun header => ((streams a.peer).src, header)) = [] := by
        rw [List.filter_eq_nil_iff]
        intro entry member
        obtain ⟨header, -, rfl⟩ := List.mem_map.mp member
        simpa using src
      rw [none, List.nil_append]

end Node

theorem Running.create_run (lookup : Lookup) (src : SocketAddr) (cid : UInt32) {header : List UInt8} {outcome : ProcessOutcome}
    (numbered : Numbered header) {j : Nat} (lt : j < (fragCount header).toNat) (r : Running C)
    (peeled : processHeader C r.node.identity header = .ok outcome)
    (buffer : (r.node.createFrags.get cid).getD (.fresh (fragCount header)) = held header (Finset.range j)) :
    ∃ r', Run Step r (((fragment header).drop j).map fun frag => .recv lookup src ⟨cid, .create, 0, frag⟩) r' ∧
      r'.node.circuits = r.node.circuits.insert cid (r.node.createdEntry src cid outcome) := by
  -- On the number of fragments that are still to come.
  obtain ⟨k, left⟩ := Nat.exists_eq_add_of_lt lt
  induction k generalizing j r with
  | zero =>
    obtain ⟨frag, frag_j⟩ : ∃ frag, (fragment header)[j]? = some frag := ⟨_, getElem?_fragment lt⟩
    have gathered := r.node.gather_fragment numbered cid lt buffer frag_j
    rw [if_pos (by omega)] at gathered
    have completed : r.node.completes ⟨cid, .create, 0, frag⟩ = some outcome := by
      rw [Node.completes, gathered]
      simp only [peeled]
    have tail : (fragment header).drop (j + 1) = [] := List.drop_of_length_le (by rw [length_fragment]; omega)
    rw [drop_eq_cons frag_j, tail]
    exact ⟨_, .single (.recv r lookup src _), r.recv_completes lookup src rfl completed⟩
  | succ k ih =>
    obtain ⟨frag, frag_j⟩ : ∃ frag, (fragment header)[j]? = some frag := ⟨_, getElem?_fragment lt⟩
    have gathered := r.node.gather_fragment numbered cid lt buffer frag_j
    rw [if_neg (by omega)] at gathered
    have after : (r.recv lookup src ⟨cid, .create, 0, frag⟩).node =
        { r.node with createFrags := r.node.createFrags.insert cid (held header (Finset.range (j + 1))) } := by
      rw [r.recv_create lookup src rfl]
      simp only [Node.handleCreate, gathered]
    obtain ⟨r', rest, circuits⟩ := ih (j := j + 1) (by omega) (r.recv lookup src ⟨cid, .create, 0, frag⟩)
      (by rw [after]; exact peeled) (by rw [after, Table.get_insert_self, Option.getD_some]) (by omega)
    rw [after] at circuits
    rw [drop_eq_cons frag_j]
    exact ⟨r', rest.cons (.recv r lookup src _), circuits⟩

def Merges (streams : Bool → CreateStream) (order : List Arrival) : Prop :=
  ∀ x, ((order.filter fun a => a.peer = x).map Arrival.index).Perm (List.range (streams x).count)

def InTurn (order : List Arrival) : Prop :=
  ∃ x first second, order = first ++ second ∧ (∀ a ∈ first, a.peer = x) ∧ ∀ a ∈ second, a.peer = !x

/-- Each peer's header comes out once and as it was sent, and at every moment there is from each
peer what its own fragments alone would have given. -/
def Node.Isolated (node : Node C) (streams : Bool → CreateStream) (order : List Arrival) : Prop :=
  ∀ x, (node.reassembled streams order).filter (fun entry => entry.1 = (streams x).src) = [(streams x).done] ∧
    ∀ seen, seen <+: order → (node.reassembled streams seen).filter (fun entry => entry.1 = (streams x).src) =
      node.reassembled streams (seen.filter fun a => a.peer = x)

section

variable {streams : Bool → CreateStream} {order : List Arrival}

theorem Merges.length (merges : Merges streams order) (x : Bool) :
    (order.filter fun a => a.peer = x).length = (streams x).count := by
  have same := (merges x).length_eq
  rwa [List.length_map, List.length_range] at same

theorem Merges.seen (merges : Merges streams order) (x : Bool) {part : List Arrival} (sublist : part.Sublist order) :
    (∀ a ∈ part.filter fun a => a.peer = x, a.peer = x) ∧
      ((part.filter fun a => a.peer = x).map Arrival.index).Nodup ∧
      ∀ a ∈ part.filter fun a => a.peer = x, a.index < (streams x).count := by
  have fewer := (sublist.filter fun a => decide (a.peer = x)).map Arrival.index
  refine ⟨fun a member => by simpa using (List.mem_filter.mp member).2, ?_, fun a member => ?_⟩
  · exact fewer.nodup ((merges x).nodup_iff.mpr List.nodup_range)
  · exact List.mem_range.mp ((merges x).mem_iff.mp (fewer.subset (List.mem_map_of_mem member)))

theorem Merges.alone (merges : Merges streams order) (x : Bool) (node : Node C) {part : List Arrival}
    (sublist : part.Sublist order) (free : node.createFrags.get (streams x).cid = none) :
    node.reassembled streams (part.filter fun a => a.peer = x) =
      if (part.filter fun a => a.peer = x).length = (streams x).count then [(streams x).done] else [] := by
  obtain ⟨own, nodup, below⟩ := merges.seen x sublist
  exact (Node.reassembled_alone x node own nodup below free).1

theorem Node.isolated_of_seen (merges : Merges streams order) {node : Node C}
    (free : ∀ x, node.createFrags.get (streams x).cid = none)
    (seen : ∀ x part, part <+: order → (node.reassembled streams part).filter (fun entry => entry.1 = (streams x).src) =
      node.reassembled streams (part.filter fun a => a.peer = x)) : node.Isolated streams order := by
  intro x
  refine ⟨?_, seen x⟩
  rw [seen x order (List.prefix_refl _), merges.alone x node (List.Sublist.refl _) (free x), if_pos (merges.length x)]

theorem cid_not (same : (streams false).cid = (streams true).cid) (x : Bool) : (streams !x).cid = (streams x).cid := by
  cases x with
  | false => exact same.symm
  | true => exact same

theorem filter_mine {arrivals : List Arrival} {x : Bool} (own : ∀ a ∈ arrivals, a.peer = x) :
    arrivals.filter (fun a => a.peer = x) = arrivals := List.filter_eq_self.mpr fun a member => by simp [own a member]

theorem filter_theirs {arrivals : List Arrival} {x y : Bool} (own : ∀ a ∈ arrivals, a.peer = y) (ne : y ≠ x) :
    arrivals.filter (fun a => a.peer = x) = [] :=
  List.filter_eq_nil_iff.mpr fun a member => by simpa [own a member] using ne

theorem done_src (x : Bool) (complete : Prop) [Decidable complete] :
    ∀ entry ∈ if complete then [(streams x).done] else [], entry.1 = (streams x).src := by
  intro entry member
  split at member
  · rw [List.mem_singleton.mp member]
    rfl
  · cases member

theorem src_ne (apart : (streams false).src ≠ (streams true).src) (x : Bool) : (streams x).src ≠ (streams !x).src := by
  cases x with
  | false => exact apart
  | true => exact apart.symm

theorem filter_own {log : List (SocketAddr × List UInt8)} {src : SocketAddr} (own : ∀ entry ∈ log, entry.1 = src) :
    log.filter (fun entry => entry.1 = src) = log := List.filter_eq_self.mpr fun entry member => by simp [own entry member]

theorem filter_other {log : List (SocketAddr × List UInt8)} {src src' : SocketAddr} (own : ∀ entry ∈ log, entry.1 = src)
    (ne : src ≠ src') : log.filter (fun entry => entry.1 = src') = [] :=
  List.filter_eq_nil_iff.mpr fun entry member => by simpa [own entry member] using ne

theorem seen_of_inTurn (apart : (streams false).src ≠ (streams true).src) (merges : Merges streams order) {node : Node C}
    (free : ∀ x, node.createFrags.get (streams x).cid = none) (same : (streams false).cid = (streams true).cid)
    (inTurn : InTurn order) (y : Bool) (part : List Arrival) (sofar : part <+: order) :
    (node.reassembled streams part).filter (fun entry => entry.1 = (streams y).src) =
      node.reassembled streams (part.filter fun a => a.peer = y) := by
  obtain ⟨x, first, second, rfl, left, right⟩ := inTurn
  have cids := cid_not same x
  -- The part is a beginning of what the first peer sends, or all of it and a beginning of the second's.
  obtain ⟨early, late, rfl, within, within', whole⟩ := prefix_append_split sofar
  have earlyOwn : ∀ a ∈ early, a.peer = x := fun a member => left a (within.subset member)
  have lateOwn : ∀ a ∈ late, a.peer = !x := fun a member => right a (within'.subset member)
  have filterX : (early ++ late).filter (fun a => a.peer = x) = early := by
    rw [List.filter_append, filter_mine earlyOwn, filter_theirs lateOwn (Bool.not_ne_self x), List.append_nil]
  have filterY : (early ++ late).filter (fun a => a.peer = !x) = late := by
    rw [List.filter_append, filter_theirs earlyOwn (Bool.self_ne_not x), filter_mine lateOwn, List.nil_append]
  obtain ⟨-, earlyNodup, earlyBelow⟩ := merges.seen x sofar.sublist
  obtain ⟨-, lateNodup, lateBelow⟩ := merges.seen (!x) sofar.sublist
  rw [filterX] at earlyNodup earlyBelow
  rw [filterY] at lateNodup lateBelow
  obtain ⟨earlyLog, earlyFree⟩ := node.reassembled_alone x earlyOwn earlyNodup earlyBelow (free x)
  obtain ⟨lateLog, -⟩ := node.reassembled_alone (!x) lateOwn lateNodup lateBelow (free !x)
  -- The second peer finds the buffer as it was before the first.
  have lateSame : (early.foldl (Node.arrive streams) node).reassembled streams late = node.reassembled streams late := by
    cases late with
    | nil => rfl
    | cons a rest =>
      obtain rfl := whole (List.cons_ne_nil _ _)
      have all : early.length = (streams x).count := by
        have size := merges.length x
        rwa [List.filter_append, filter_mine left, filter_theirs right (Bool.not_ne_self x), List.append_nil] at size
      rw [lateLog]
      exact (Node.reassembled_alone (!x) _ lateOwn lateNodup lateBelow (by rw [cids, earlyFree all])).1
  have earlySrc : ∀ entry ∈ node.reassembled streams early, entry.1 = (streams x).src := earlyLog ▸ done_src x _
  have lateSrc : ∀ entry ∈ node.reassembled streams late, entry.1 = (streams !x).src := lateLog ▸ done_src (!x) _
  rw [Node.reassembled_append, lateSame, List.filter_append]
  by_cases mine : y = x
  · subst mine
    rw [filterX, filter_own earlySrc, filter_other lateSrc (src_ne apart y).symm, List.append_nil]
  · obtain rfl : y = !x := Bool.eq_not.mpr mine
    rw [filterY, filter_other earlySrc (src_ne apart x), filter_own lateSrc, List.nil_append]

theorem Node.Isolated.freed {node : Node C} (isolated : node.Isolated streams order) (merges : Merges streams order) {x : Bool}
    (free : node.createFrags.get (streams x).cid = none) {before after : List Arrival} {a : Arrival}
    (cut : order = before ++ a :: after) (peer : a.peer = x) (rest : ∀ b ∈ after, b.peer = !x) :
    ((before ++ [a]).foldl (Node.arrive streams) node).createFrags.get (streams x).cid = none := by
  have toA : before ++ [a] <+: order := ⟨after, by rw [cut, List.append_assoc, List.singleton_append]⟩
  have toBefore : before <+: order := (List.prefix_append _ _).trans toA
  have size := merges.length x
  rw [cut, List.append_cons, List.filter_append, filter_theirs rest (Bool.not_ne_self x), List.append_nil] at size
  have missing : (before.filter fun a => a.peer = x).length ≠ (streams x).count := by
    rw [← size, List.filter_append, List.length_append]
    simp [peer]
  have now := (isolated x).2 _ toA
  have soon := (isolated x).2 _ toBefore
  rw [merges.alone x node toA.sublist free, if_pos size, Node.reassembled_append, List.filter_append, soon,
    merges.alone x node toBefore.sublist free, if_neg missing] at now
  rw [List.foldl_append, List.foldl_cons, List.foldl_nil, Node.arrive_createFrags]
  simp only [Node.reassembled, List.append_nil, List.nil_append] at now
  subst peer
  cases full : (Node.gather (before.foldl (Node.arrive streams) node) ((streams a.peer).cell a.index)).1 with
  | none =>
    rw [full] at now
    cases now
  | some header => exact Node.gather_some full

/-- At equal cids, the peer whose last fragment comes first leaves the other a free buffer, and the
other has to fill it alone. -/
theorem inTurn_of_isolated (merges : Merges streams order) {node : Node C}
    (free : ∀ x, node.createFrags.get (streams x).cid = none) (same : (streams false).cid = (streams true).cid)
    (isolated : node.Isolated streams order) : InTurn order := by
  have some (x : Bool) : ∃ a ∈ order, a.peer = x := by
    have size := merges.length x
    obtain ⟨a, member⟩ := List.exists_mem_of_length_pos (size ▸ (streams x).count_pos)
    exact ⟨a, List.mem_of_mem_filter member, by simpa using (List.mem_filter.mp member).2⟩
  obtain ⟨front, z, split⟩ : ∃ front z, order = front ++ [z] := by
    obtain ⟨a, member, -⟩ := some true
    exact ⟨_, _, (List.dropLast_append_getLast (List.ne_nil_of_mem member)).symm⟩
  -- `z` is the very last fragment, `a` the last one of the other peer.
  obtain ⟨before, a, after, cut, peer, rest⟩ := exists_last_split (fun a : Arrival => a.peer = !z.peer) (some _)
  obtain ⟨x, last⟩ : ∃ x, z.peer = !x := ⟨!z.peer, by simp⟩
  have cids := cid_not same x
  rw [last, Bool.not_not] at peer rest
  have restOwn : ∀ b ∈ after, b.peer = !x := fun b member => Bool.eq_not.mpr (rest b member)
  have more : after ≠ [] := by
    intro none
    rw [none, split] at cut
    obtain rfl := List.singleton_inj.mp (List.append_inj' cut rfl).2
    rw [peer] at last
    cases x <;> cases last
  have toA : before ++ [a] <+: order := ⟨after, by rw [cut, List.append_assoc, List.singleton_append]⟩
  have afterOwn := filter_mine restOwn
  have size := merges.length !x
  rw [cut, List.append_cons, List.filter_append, afterOwn, List.length_append] at size
  -- `a` leaves the buffer free.
  have freed := isolated.freed merges (free x) cut peer restOwn
  rw [← cids] at freed
  -- What is left are fragments of the other peer, and they must be enough for its header.
  have whole : after.length = (streams !x).count := by
    have all := (isolated !x).1
    have sofar := (isolated !x).2 _ toA
    rw [merges.alone (!x) node toA.sublist (free !x), if_neg] at sofar
    · have sublist : after.Sublist order := by
        rw [cut, List.append_cons]
        exact List.sublist_append_right _ _
      obtain ⟨-, nodup, below⟩ := merges.seen (!x) sublist
      rw [afterOwn] at nodup below
      have late := (Node.reassembled_alone (!x) _ restOwn nodup below freed).1
      rw [cut, List.append_cons, Node.reassembled_append, List.filter_append, sofar, late, List.nil_append] at all
      by_contra short
      rw [if_neg short] at all
      cases all
    · have := List.length_pos_iff.mpr more
      omega
  refine ⟨x, before ++ [a], after, by rw [cut, List.append_cons], fun b member => ?_, restOwn⟩
  by_contra other
  have here : b ∈ (before ++ [a]).filter fun a => a.peer = !x :=
    List.mem_filter.mpr ⟨member, by simpa using Bool.eq_not.mpr other⟩
  have := List.length_pos_of_mem here
  omega

/-- Two peers send the fragments of their own CREATE headers to one node, which holds no others
under their cids. Each header comes out as if the other peer had sent nothing exactly if the two
cids differ or one peer's fragments all come before the other's. -/
theorem isolated_iff (streams : Bool → CreateStream) (apart : (streams false).src ≠ (streams true).src) (node : Node C)
    (free : ∀ x, node.createFrags.get (streams x).cid = none) (order : List Arrival) (merges : Merges streams order) :
    node.Isolated streams order ↔ (streams false).cid ≠ (streams true).cid ∨ InTurn order := by
  constructor
  · intro isolated
    by_cases same : (streams false).cid = (streams true).cid
    · exact .inr (inTurn_of_isolated merges free same isolated)
    · exact .inl same
  · intro separate
    apply Node.isolated_of_seen merges free
    intro x part sofar
    by_cases same : (streams false).cid = (streams true).cid
    · rcases separate with other | inTurn
      · exact absurd same other
      · exact seen_of_inTurn apart merges free same inTurn x part sofar
    · exact Node.reassembled_apart apart same x node node rfl part

end

namespace Transparent

open Nbf.Crypto.Transparent

def neighbours (cid : UInt32) (x : Bool) : CreateStream where
  src := localhost (if x then 9300 else 9200)
  cid := if x then cid else 1
  header := .replicate 2000 (if x then 2 else 1)
  numbered := by
    rw [Numbered, List.length_replicate]
    decide

theorem count_neighbours (cid : UInt32) (x : Bool) : (neighbours cid x).count = 2 := by
  have size : (neighbours cid x).header.length = 2000 := List.length_replicate ..
  rw [CreateStream.count, toNat_fragCount (neighbours cid x).numbered, size]
  decide

def byTurns : List Arrival :=
  let lookup : Lookup := fun _ => .error .timeout
  [⟨false, 0, lookup⟩, ⟨true, 0, lookup⟩, ⟨false, 1, lookup⟩, ⟨true, 1, lookup⟩]

theorem byTurns_merges (cid : UInt32) : Merges (neighbours cid) byTurns := by
  intro x
  rw [count_neighbours]
  cases x with
  | false => exact List.Perm.refl [0, 1]
  | true => exact List.Perm.refl [0, 1]

theorem neighbours_apart (cid : UInt32) : (neighbours cid false).src ≠ (neighbours cid true).src :=
  localhost_ne (by decide)

theorem byTurns_isolated : (Node.spawn crates (1 : UInt8)).Isolated (neighbours 2) byTurns :=
  (isolated_iff (neighbours 2) (neighbours_apart 2) (Node.spawn crates (1 : UInt8)) (fun _ => rfl) byTurns
    (byTurns_merges 2)).mpr (.inl (by decide))

/-- Under one cid, the header of the second peer is lost. -/
theorem shared_cid_loses : Merges (neighbours 1) byTurns ∧
    (Node.spawn crates (1 : UInt8)).reassembled (neighbours 1) byTurns = [(neighbours 1 false).done] ∧
    ¬ (Node.spawn crates (1 : UInt8)).Isolated (neighbours 1) byTurns := by
  have log : (Node.spawn crates (1 : UInt8)).reassembled (neighbours 1) byTurns = [(neighbours 1 false).done] := by
    decide +kernel
  refine ⟨byTurns_merges 1, log, fun isolated => ?_⟩
  have second := (isolated true).1
  have own : ∀ entry ∈ [(neighbours 1 false).done], entry.1 = (neighbours 1 false).src := by
    intro entry member
    rw [List.mem_singleton.mp member]
    rfl
  rw [log, filter_other own (neighbours_apart 1)] at second
  cases second

theorem pair_relay (src : SocketAddr) : ∃ events r kFwd kBwd,
    Run Running.Step (.spawn crates (1 : UInt8)) events r ∧
      (∀ event ∈ events, ∃ lookup cell, event = .recv lookup src cell ∧ cell.cmd = .create) ∧
      r.node.circuits.get 1 = some (.relay (.zeros 16) kFwd kBwd ⟨1, src⟩ ⟨1, localhost 9101⟩ 0) := by
  obtain ⟨size, kFwd, kBwd, nextId, newHeader, peeled⟩ := pair_peels
  have numbered : Numbered pairHeader := by simp [Numbered, size, chunkLen, cellData, cellLen, cellHdr]
  have empty : FragBuf.fresh (fragCount pairHeader) = held pairHeader (Finset.range 0) := fresh_eq_held pairHeader
  obtain ⟨r, run, circuits⟩ := Running.create_run (fun _ => .error .timeout) src 1 numbered (fragCount_pos numbered)
    (.spawn crates (1 : UInt8)) peeled empty
  refine ⟨_, r, kFwd, kBwd, run, fun event member => ?_, by rw [circuits, Table.get_insert_self]; rfl⟩
  obtain ⟨frag, -, rfl⟩ := List.mem_map.mp member
  exact ⟨_, _, rfl, rfl⟩

end Transparent
end Nbf.Net

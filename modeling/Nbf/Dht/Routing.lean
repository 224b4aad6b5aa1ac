import Mathlib.Order.Std
import Nbf.Library.Nearest
import Nbf.Dht.Kademlia

/-! The routing table: what `try_merge` keeps of the contacts it is given, and
what `closest` finds among them. -/

set_option autoImplicit false

namespace Nbf.Dht

open Nbf.Library Nbf.Crypto

theorem bytes_linear : Std.IsLinearOrder (List UInt8) :=
  have : Std.IsLinearOrder UInt8 := .of_ord
  inferInstance

/-- Byte strings in the order in which the code compares distances. -/
instance listLinearOrder : LinearOrder (List UInt8) where
  le_refl := bytes_linear.le_refl
  le_trans := bytes_linear.le_trans
  le_antisymm := bytes_linear.le_antisymm
  le_total := bytes_linear.le_total
  lt_iff_le_not_ge a b :=
    ⟨fun less => ⟨(bytes_linear.le_total a b).resolve_right fun other => other less, fun other => other less⟩,
      fun ⟨_, less⟩ => Decidable.not_not.mp less⟩
  toDecidableLE := inferInstance
  toDecidableLT := inferInstance
  toDecidableEq := inferInstance
  compare a b := compareOfLessAndEq a b
  compare_eq_compareOfLessAndEq _ _ := rfl

theorem zipWith_xor_cancel {a b key : List UInt8} (left : a.length = key.length) (right : b.length = key.length)
    (same : List.zipWith (· ^^^ ·) a key = List.zipWith (· ^^^ ·) b key) : a = b := by
  induction key generalizing a b with
  | nil => rw [List.length_eq_zero_iff.mp left, List.length_eq_zero_iff.mp right]
  | cons byte key ih =>
    cases a with
    | nil => cases left
    | cons x a =>
      cases b with
      | nil => cases right
      | cons y b =>
        obtain ⟨head, tail⟩ := List.cons.inj same
        rw [ih (Nat.succ.inj left) (Nat.succ.inj right) tail, (UInt8.xor_left_inj byte).mp head]

theorem dist_injective (key : NodeId) : Function.Injective (dist · key) := fun a b same =>
  Octets.ext (zipWith_xor_cancel (by simp) (by simp) same)

theorem zipWith_xor_self_le {a key : List UInt8} (size : a.length = key.length) :
    List.zipWith (· ^^^ ·) key key ≤ List.zipWith (· ^^^ ·) a key := by
  induction key generalizing a with
  | nil =>
    rw [List.length_eq_zero_iff.mp size]
  | cons byte key ih =>
    cases a with
    | nil => cases size
    | cons x a =>
      intro less
      rw [List.zipWith_cons_cons, List.zipWith_cons_cons, UInt8.xor_self, List.cons_lt_cons_iff] at less
      rcases less with lower | ⟨-, further⟩
      · exact UInt8.not_lt_zero lower
      · exact ih (Nat.succ.inj size) further

theorem dist_self_le (a key : NodeId) : dist key key ≤ dist a key := zipWith_xor_self_le (by simp)

/-! Sorting. -/

def ids (contacts : List Contact) : Finset NodeId := (contacts.map (·.nodeId)).toFinset

@[simp] theorem mem_ids {contacts : List Contact} {i : NodeId} : i ∈ ids contacts ↔ ∃ c ∈ contacts, c.nodeId = i := by
  simp [ids]

@[simp] theorem ids_append (left right : List Contact) : ids (left ++ right) = ids left ∪ ids right := by
  simp [ids]

theorem key_nearest {key : NodeId} {n : Nat} {s : Finset NodeId} (positive : 0 < n) (member : key ∈ s) :
    key ∈ nearest (dist · key) n s := by
  have none : below (dist · key) s key = ∅ := Finset.filter_false_of_mem fun i _ => not_lt_of_ge (dist_self_le i key)
  refine mem_nearest.mpr ⟨member, ?_⟩
  rwa [none, Finset.card_empty]

def Ascending (key : NodeId) (contacts : List Contact) : Prop :=
  contacts.Pairwise fun a b => dist a.nodeId key < dist b.nodeId key

theorem Ascending.take {key : NodeId} {contacts : List Contact} (ascending : Ascending key contacts) (n : Nat) :
    Ascending key (contacts.take n) := List.Pairwise.take ascending

theorem Ascending.nodup {key : NodeId} {contacts : List Contact} (ascending : Ascending key contacts) :
    (contacts.map (·.nodeId)).Nodup := by
  apply List.pairwise_map.mpr
  apply List.Pairwise.imp _ ascending
  exact fun less same => ne_of_lt less (congrArg (dist · key) same)

theorem Ascending.ids_take {key : NodeId} {contacts : List Contact} (ascending : Ascending key contacts) (n : Nat) :
    ids (contacts.take n) = nearest (dist · key) n (ids contacts) := by
  have names : (contacts.map (·.nodeId)).Pairwise fun i j => dist i key < dist j key := List.pairwise_map.mpr ascending
  rw [ids, List.map_take]
  exact toFinset_take names n

theorem sortByDist_perm (key : NodeId) (contacts : List Contact) : (sortByDist key contacts).Perm contacts :=
  List.mergeSort_perm ..

theorem ids_sortByDist (key : NodeId) (contacts : List Contact) : ids (sortByDist key contacts) = ids contacts :=
  List.toFinset_eq_of_perm _ _ ((sortByDist_perm key contacts).map _)

theorem sortByDist_ascending (key : NodeId) {contacts : List Contact} (nodup : (contacts.map (·.nodeId)).Nodup) :
    Ascending key (sortByDist key contacts) := by
  have sorted : (sortByDist key contacts).Pairwise fun a b => dist a.nodeId key ≤ dist b.nodeId key := by
    have sorts := @List.pairwise_mergeSort Contact (fun a b => decide (dist a.nodeId key ≤ dist b.nodeId key))
      (fun a b c first second => decide_eq_true (le_trans (of_decide_eq_true first) (of_decide_eq_true second)))
      (fun a b => by simpa using le_total (dist a.nodeId key) (dist b.nodeId key)) contacts
    exact sorts.imp of_decide_eq_true
  have apart : (sortByDist key contacts).Pairwise fun a b => a.nodeId ≠ b.nodeId :=
    List.pairwise_map.mp (((sortByDist_perm key contacts).map _).nodup_iff.mpr nodup)
  apply List.Pairwise.imp _ (sorted.and apart)
  exact fun ⟨le, differ⟩ => lt_of_le_of_ne le fun same => differ (dist_injective key same)

theorem Ascending.head_own {key : NodeId} {contacts : List Contact} (ascending : Ascending key contacts) {own : Contact}
    (member : own ∈ contacts) (named : own.nodeId = key) : contacts.head? = some own := by
  cases contacts with
  | nil => cases member
  | cons head tail =>
    rcases List.mem_cons.mp member with rfl | later
    · rfl
    · have lower := (List.pairwise_cons.mp ascending).1 own later
      rw [named] at lower
      exact absurd lower (not_lt_of_ge (dist_self_le head.nodeId key))

/-! Merging. -/

/-- The table holds the node's own contact, and no id twice. -/
structure OwnOnce (id : NodeId) (own : Contact) (rt : List Contact) : Prop where
  named : own.nodeId = id
  member : own ∈ rt
  nodup : (rt.map (·.nodeId)).Nodup

theorem mergeOne_eq {id : NodeId} {own : Contact} {rt : List Contact} (once : OwnOnce id own rt) (c : Contact) :
    Kademlia.mergeOne id rt c = if c.nodeId ∈ ids rt then rt else rt ++ [c] := by
  have there : rt.any (·.nodeId = c.nodeId) = true ↔ c.nodeId ∈ ids rt := by simp
  unfold Kademlia.mergeOne
  split
  next self => rw [if_pos (mem_ids.mpr ⟨own, once.member, once.named.trans self.symm⟩)]
  next => simp only [there]

theorem OwnOnce.mergeOne {id : NodeId} {own : Contact} {rt : List Contact} (once : OwnOnce id own rt) (c : Contact) :
    OwnOnce id own (Kademlia.mergeOne id rt c) := by
  rw [mergeOne_eq once]
  split
  next => exact once
  next fresh =>
    refine ⟨once.named, List.mem_append_left _ once.member, ?_⟩
    rw [List.map_append, List.nodup_append]
    refine ⟨once.nodup, by simp, fun i old j new same => ?_⟩
    obtain ⟨d, member, rfl⟩ := List.mem_map.mp old
    rw [List.map_singleton, List.mem_singleton] at new
    exact fresh (mem_ids.mpr ⟨d, member, same.trans new⟩)

theorem ids_mergeOne {id : NodeId} {own : Contact} {rt : List Contact} (once : OwnOnce id own rt) (c : Contact) :
    ids (Kademlia.mergeOne id rt c) = ids rt ∪ ids [c] := by
  rw [mergeOne_eq once]
  split
  next there =>
    apply (Finset.union_eq_left.mpr _).symm
    intro i new
    obtain ⟨d, member, rfl⟩ := mem_ids.mp new
    rwa [List.mem_singleton.mp member]
  next => exact ids_append rt [c]

theorem foldl_mergeOne {id : NodeId} {own : Contact} {rt : List Contact} (once : OwnOnce id own rt) (contacts : List Contact) :
    OwnOnce id own (contacts.foldl (Kademlia.mergeOne id) rt) ∧
      ids (contacts.foldl (Kademlia.mergeOne id) rt) = ids rt ∪ ids contacts := by
  induction contacts generalizing rt with
  | nil => exact ⟨once, by simp [ids]⟩
  | cons c contacts ih =>
    obtain ⟨kept, union⟩ := ih (once.mergeOne c)
    refine ⟨kept, ?_⟩
    rw [List.foldl_cons, union, ids_mergeOne once, Finset.union_assoc, ← ids_append, List.singleton_append]

theorem mem_foldl_mergeOne {id : NodeId} {rt : List Contact} {contacts : List Contact} {c : Contact}
    (member : c ∈ contacts.foldl (Kademlia.mergeOne id) rt) : c ∈ rt ∨ (c ∈ contacts ∧ c.nodeId ∉ ids rt) := by
  induction contacts generalizing rt with
  | nil => exact .inl member
  | cons d contacts ih =>
    have grows : ids rt ⊆ ids (Kademlia.mergeOne id rt d) := by
      unfold Kademlia.mergeOne
      split
      · exact subset_rfl
      · split
        · exact subset_rfl
        · rw [ids_append]
          exact Finset.subset_union_left
    rcases ih member with old | ⟨new, fresh⟩
    · unfold Kademlia.mergeOne at old
      split at old
      · exact .inl old
      · split at old
        · exact .inl old
        next absent =>
          rcases List.mem_append.mp old with old | new
          · exact .inl old
          · rw [List.mem_singleton] at new
            subst new
            exact .inr ⟨List.mem_cons_self, by simpa using absent⟩
    · exact .inr ⟨List.mem_cons_of_mem _ new, fun there => fresh (grows there)⟩

namespace Kademlia

/-- How a routing table stands after every merge. -/
structure Arranged (kad : Kademlia) : Prop where
  named : kad.ownDesc.nodeId = kad.id
  own : Contact.fromDesc kad.ownDesc ∈ kad.rt
  ascending : Ascending kad.id kad.rt
  short : kad.rt.length ≤ 64

theorem Arranged.new (ownDesc : Descriptor) : (new ownDesc.nodeId ownDesc).Arranged :=
  ⟨rfl, List.mem_singleton_self _, List.pairwise_singleton _ _, by simp [Kademlia.new]⟩

theorem Arranged.once {kad : Kademlia} (arranged : kad.Arranged) :
    OwnOnce kad.id (Contact.fromDesc kad.ownDesc) kad.rt :=
  ⟨arranged.named, arranged.own, arranged.ascending.nodup⟩

/-- A merge keeps the 64 ids nearest to the node of those that were there and those that came. -/
theorem Arranged.ids_tryMerge {kad : Kademlia} (arranged : kad.Arranged) (contacts : List Contact) :
    ids (kad.tryMerge contacts).rt = nearest (dist · kad.id) 64 (ids kad.rt ∪ ids contacts) := by
  obtain ⟨once, union⟩ := foldl_mergeOne arranged.once contacts
  rw [tryMerge, (sortByDist_ascending kad.id once.nodup).ids_take, ids_sortByDist, union]

theorem Arranged.tryMerge {kad : Kademlia} (arranged : kad.Arranged) (contacts : List Contact) :
    (kad.tryMerge contacts).Arranged := by
  obtain ⟨once, -⟩ := foldl_mergeOne arranged.once contacts
  have sorted := sortByDist_ascending kad.id once.nodup
  have first := sorted.head_own ((sortByDist_perm kad.id _).mem_iff.mpr once.member) arranged.named
  refine ⟨arranged.named, ?_, sorted.take 64, by simp [Kademlia.tryMerge]⟩
  obtain ⟨tail, cut⟩ := List.head?_eq_some_iff.mp first
  rw [Kademlia.tryMerge, cut, List.take_succ_cons]
  exact List.mem_cons_self

theorem mem_tryMerge {kad : Kademlia} {contacts : List Contact} {c : Contact} (member : c ∈ (kad.tryMerge contacts).rt) :
    c ∈ kad.rt ∨ (c ∈ contacts ∧ c.nodeId ∉ ids kad.rt) :=
  mem_foldl_mergeOne ((sortByDist_perm kad.id _).mem_iff.mp (List.mem_of_mem_take member))

theorem Arranged.stays {kad : Kademlia} (arranged : kad.Arranged) {contacts : List Contact} {c : Contact} (member : c ∈ kad.rt)
    (kept : c.nodeId ∈ ids (kad.tryMerge contacts).rt) : c ∈ (kad.tryMerge contacts).rt := by
  obtain ⟨d, there, same⟩ := mem_ids.mp kept
  rcases mem_tryMerge there with old | ⟨-, fresh⟩
  · exact List.inj_on_of_nodup_map arranged.ascending.nodup old member same ▸ there
  · exact absurd (mem_ids.mpr ⟨c, member, same.symm⟩) fresh

theorem Arranged.ids_closest {kad : Kademlia} (arranged : kad.Arranged) (key : NodeId) (n : Nat) :
    ids (kad.closest key n) = nearest (dist · key) n (ids kad.rt) := by
  rw [closest, (sortByDist_ascending key arranged.ascending.nodup).ids_take, ids_sortByDist]

theorem Arranged.nearest_ids {kad : Kademlia} (arranged : kad.Arranged) (key : NodeId) :
    nearest (dist · key) 64 (ids kad.rt) = ids kad.rt := by
  apply nearest_of_card_le
  exact (List.toFinset_card_le _).trans (by simpa using arranged.short)

theorem foldl_tryMerge {kad : Kademlia} (arranged : kad.Arranged) (batches : List (List Contact)) :
    (batches.foldl Kademlia.tryMerge kad).Arranged ∧ (batches.foldl Kademlia.tryMerge kad).id = kad.id ∧
      (batches.foldl Kademlia.tryMerge kad).ownDesc = kad.ownDesc ∧
      ids (batches.foldl Kademlia.tryMerge kad).rt = nearest (dist · kad.id) 64 (ids kad.rt ∪ ids batches.flatten) := by
  induction batches generalizing kad with
  | nil =>
    have all : ids kad.rt ∪ ids ([] : List (List Contact)).flatten = ids kad.rt := by simp [ids]
    exact ⟨arranged, rfl, rfl, by rw [all, arranged.nearest_ids, List.foldl_nil]⟩
  | cons batch batches ih =>
    obtain ⟨kept, id, ownDesc, nearer⟩ := ih (arranged.tryMerge batch)
    refine ⟨kept, id, ownDesc, ?_⟩
    have here : (kad.tryMerge batch).id = kad.id := rfl
    rw [List.foldl_cons, nearer, here, arranged.ids_tryMerge, nearest_absorb, Finset.union_assoc, ← ids_append,
      List.flatten_cons]

/-- Whatever is merged in whatever order: the node's own contact is first and once, no id is twice, distances
ascend strictly, and the ids are the 64 nearest to the node of its own and all that were merged. -/
theorem tryMerge_nearest (ownDesc : Descriptor) (batches : List (List Contact)) :
    let rt := (batches.foldl Kademlia.tryMerge (new ownDesc.nodeId ownDesc)).rt
    let heard := insert ownDesc.nodeId (ids batches.flatten)
    rt.head? = some (Contact.fromDesc ownDesc) ∧ rt.count (Contact.fromDesc ownDesc) = 1 ∧
      (rt.map (·.nodeId)).Nodup ∧ Ascending ownDesc.nodeId rt ∧ rt.length = min 64 heard.card ∧
      ids rt = nearest (dist · ownDesc.nodeId) 64 heard ∧
      ∀ others : List (List Contact), ids others.flatten = ids batches.flatten →
        ids (others.foldl Kademlia.tryMerge (new ownDesc.nodeId ownDesc)).rt = ids rt := by
  obtain ⟨arranged, id, same, nearer⟩ := foldl_tryMerge (Arranged.new ownDesc) batches
  have heard : ids (new ownDesc.nodeId ownDesc).rt ∪ ids batches.flatten = insert ownDesc.nodeId (ids batches.flatten) := rfl
  have ascending : Ascending ownDesc.nodeId (batches.foldl Kademlia.tryMerge (new ownDesc.nodeId ownDesc)).rt :=
    (congrArg (Ascending · _) id).mp arranged.ascending
  have own : Contact.fromDesc ownDesc ∈ (batches.foldl Kademlia.tryMerge (new ownDesc.nodeId ownDesc)).rt :=
    (congrArg (Contact.fromDesc · ∈ _) same).mp arranged.own
  rw [heard] at nearer
  refine ⟨ascending.head_own own rfl, ?_, ascending.nodup, ascending, ?_, nearer, fun others equal => ?_⟩
  · exact List.count_eq_one_of_mem ascending.nodup.of_map own
  · rw [← card_nearest (dist_injective ownDesc.nodeId) 64, ← List.length_map (·.nodeId),
      ← List.toFinset_card_of_nodup ascending.nodup]
    exact congrArg Finset.card nearer
  · obtain ⟨-, -, -, nearer'⟩ := foldl_tryMerge (Arranged.new ownDesc) others
    rw [heard.symm.trans (congrArg (_ ∪ ·) equal.symm)] at nearer
    exact nearer'.trans nearer.symm

end Kademlia
end Nbf.Dht

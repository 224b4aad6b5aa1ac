import Nbf.Dht.Handlers

/-! Which address the routing table has for a node whose descriptor is stored. -/

set_option autoImplicit false

namespace Nbf.Dht

open Nbf.Library Nbf.Crypto Nbf.Net

theorem Contact.addr_fromDesc {d : Descriptor} (v4 : ∃ octets, d.cellAddr.ip = .v4 octets) : (fromDesc d).addr = d.dhtAddr := by
  obtain ⟨octets, v4⟩ := v4
  simp only [fromDesc, addr, Descriptor.dhtAddr, v4]

namespace Kademlia

/-- The table has the address of every stored descriptor for the id it names. -/
def Agrees (kad : Kademlia) : Prop := ∀ c ∈ kad.rt, ∀ d, kad.store.get c.nodeId = some d → c.addr = d.dhtAddr

/-- The merge brings this contact into the table: the first of its id among `contacts`, where the table has none,
and near enough to the node. -/
structure TakesIn (kad : Kademlia) (contacts : List Contact) (c : Contact) : Prop where
  first : contacts.find? (·.nodeId = c.nodeId) = some c
  fresh : c.nodeId ∉ ids kad.rt
  near : c.nodeId ∈ nearest (dist · kad.id) 64 (ids kad.rt ∪ ids contacts)

theorem mem_foldl_mergeOne_iff {id : NodeId} {own : Contact} {rt contacts : List Contact} (once : OwnOnce id own rt) {c : Contact} :
    c ∈ contacts.foldl (mergeOne id) rt ↔ c ∈ rt ∨ c.nodeId ∉ ids rt ∧ contacts.find? (·.nodeId = c.nodeId) = some c := by
  induction contacts generalizing rt with
  | nil => simp
  | cons d contacts ih =>
    rw [List.foldl_cons, ih (once.mergeOne d), mergeOne_eq once, List.find?_cons]
    by_cases known : d.nodeId ∈ ids rt
    · by_cases same : d.nodeId = c.nodeId
      · rw [same] at known
        simp [same, known]
      · simp [same, known]
    · by_cases same : d.nodeId = c.nodeId
      · rw [same] at known
        simp only [same, known, if_false, List.mem_append, List.mem_singleton, decide_true, Option.some.injEq, not_false_eq_true,
          true_and]
        have named : c.nodeId ∈ ids (rt ++ [d]) := mem_ids.mpr ⟨d, by simp, same⟩
        simp only [named, not_true_eq_false, false_and, or_false, eq_comm]
      · have other : c ≠ d := fun here => same (here ▸ rfl)
        simp [same, known, other]

theorem Arranged.mem_tryMerge_iff {kad : Kademlia} (arranged : kad.Arranged) {contacts : List Contact} {c : Contact} :
    c ∈ (kad.tryMerge contacts).rt ↔
      (c ∈ kad.rt ∧ c.nodeId ∈ nearest (dist · kad.id) 64 (ids kad.rt ∪ ids contacts)) ∨ kad.TakesIn contacts c := by
  have merged : c ∈ (kad.tryMerge contacts).rt ↔
      c ∈ contacts.foldl (mergeOne kad.id) kad.rt ∧ c.nodeId ∈ ids (kad.tryMerge contacts).rt := by
    have sorted := sortByDist_perm kad.id (contacts.foldl (mergeOne kad.id) kad.rt)
    refine ⟨fun member => ⟨sorted.mem_iff.mp (List.mem_of_mem_take member), mem_ids.mpr ⟨c, member, rfl⟩⟩, ?_⟩
    rintro ⟨member, kept⟩
    obtain ⟨d, there, same⟩ := mem_ids.mp kept
    have nodup := (foldl_mergeOne arranged.once contacts).1.nodup
    exact List.inj_on_of_nodup_map nodup (sorted.mem_iff.mp (List.mem_of_mem_take there)) member same ▸ there
  rw [merged, mem_foldl_mergeOne_iff arranged.once, arranged.ids_tryMerge]
  constructor
  · rintro ⟨old | ⟨fresh, first⟩, near⟩
    · exact .inl ⟨old, near⟩
    · exact .inr ⟨first, fresh, near⟩
  · rintro (⟨old, near⟩ | ⟨first, fresh, near⟩)
    · exact ⟨.inl old, near⟩
    · exact ⟨.inr ⟨fresh, first⟩, near⟩

theorem Arranged.no_place {kad : Kademlia} (arranged : kad.Arranged) {x : NodeId} {contacts : List Contact}
    (settled : x ∈ ids kad.rt ∪ ids contacts ∨ x ∉ nearest (dist · kad.id) 64 (insert x (ids kad.rt))) :
    x ∈ ids (kad.tryMerge contacts).rt ∨
      x ∉ nearest (dist · kad.id) 64 (insert x (ids (kad.tryMerge contacts).rt)) := by
  by_cases there : x ∈ ids (kad.tryMerge contacts).rt
  · exact .inl there
  · right
    rw [arranged.ids_tryMerge] at there ⊢
    intro place
    rw [← Finset.union_singleton, nearest_absorb] at place
    rcases settled with old | none
    · apply there
      rwa [Finset.union_eq_left.mpr] at place
      exact Finset.singleton_subset_iff.mpr old
    · apply none
      apply mem_nearest_of_subset _ (Finset.mem_insert_self ..) place
      rw [← Finset.union_singleton]
      exact Finset.union_subset_union_left Finset.subset_union_left

theorem Agrees.keep_iff {kad : Kademlia} (agrees : kad.Agrees) (desc : Descriptor) :
    (kad.keep desc).Agrees ↔ ∀ c ∈ kad.rt, c.nodeId = desc.nodeId → c.addr = desc.dhtAddr := by
  constructor
  · intro after c member named
    refine after c member desc ?_
    rw [named]
    exact Table.get_insert_self ..
  · intro known c member d here
    rcases Table.get_insert_some here with ⟨named, rfl⟩ | ⟨-, old⟩
    · exact known c member named
    · exact agrees c member d old

theorem Agrees.tryMerge_iff {kad : Kademlia} (agrees : kad.Agrees) (arranged : kad.Arranged) (contacts : List Contact) :
    (kad.tryMerge contacts).Agrees ↔
      ∀ c, kad.TakesIn contacts c → ∀ d, kad.store.get c.nodeId = some d → c.addr = d.dhtAddr := by
  constructor
  · exact fun after c taken d here => after c (arranged.mem_tryMerge_iff.mpr (.inr taken)) d here
  · intro right c member d here
    rcases arranged.mem_tryMerge_iff.mp member with ⟨old, -⟩ | taken
    · exact agrees c old d here
    · exact right c taken d here

end Kademlia

namespace Serving

variable {C : Crates} {s t : Serving} {event : ServingEvent}

/-- The handler of a STORE for this id stands between its two locks. -/
def Between (s : Serving) (x : NodeId) : Prop := ∃ j desc, s.handlers.get j = some (.merge desc) ∧ desc.nodeId = x

/-- An id that is stored and not in the table has no place in it, or its STORE is still to merge it. -/
def Settled (s : Serving) : Prop := ∀ x d, s.node.kad.store.get x = some d →
  x ∈ ids s.node.kad.rt ∨ x ∉ nearest (dist · s.node.kad.id) 64 (insert x (ids s.node.kad.rt)) ∨ s.Between x

/-- What is stored finds its id in the table under its own address, or not at all; and a contact that comes in while
the STORE of its id is between its locks has the address that is stored. -/
def KnownRight (C : Crates) (s : Serving) (event : ServingEvent) (_ : Serving) : Prop :=
  (∀ desc, s.storing C event = some desc → ∀ c ∈ s.node.kad.rt, c.nodeId = desc.nodeId → c.addr = desc.dhtAddr) ∧
  ∀ contacts, s.merging event = some contacts → ∀ c, s.node.kad.TakesIn contacts c → s.Between c.nodeId →
    ∀ d, s.node.kad.store.get c.nodeId = some d → c.addr = d.dhtAddr

/-- What a run keeps as long as addresses are known right. -/
structure Signed (s : Serving) : Prop where
  arranged : s.node.kad.Arranged
  settled : s.Settled
  agrees : s.node.kad.Agrees

theorem Settled.between (settled : s.Settled) {contacts : List Contact} {c : Contact} (taken : s.node.kad.TakesIn contacts c)
    {d : Descriptor} (stored : s.node.kad.store.get c.nodeId = some d) : s.Between c.nodeId := by
  rcases settled c.nodeId d stored with known | none | between
  · exact absurd known taken.fresh
  · refine absurd (mem_nearest_of_subset ?_ (Finset.mem_insert_self ..) taken.near) none
    intro x among
    rcases Finset.mem_insert.mp among with rfl | old
    · exact nearest_subset _ _ _ taken.near
    · exact Finset.mem_union_left _ old
  · exact between

theorem agrees_iff_knownRight (signed : s.Signed) (step : Step C s event t) : KnownRight C s event t ↔ t.node.kad.Agrees := by
  unfold KnownRight
  cases step.change with
  | none stores merges same =>
    have agrees : t.node.kad.Agrees := by
      rw [same]
      exact signed.agrees
    simp [stores, merges, agrees]
  | stored stores merges kept =>
    rw [kept, signed.agrees.keep_iff]
    simp [stores, merges]
  | merged stores merges merged =>
    rw [merged, signed.agrees.tryMerge_iff signed.arranged]
    simp only [stores, merges, Option.some.injEq, reduceCtorEq, false_implies, implies_true, true_and, forall_eq']
    exact ⟨fun right c taken d here => right c taken (signed.settled.between taken here) d here,
      fun right c taken _ d here => right c taken d here⟩

theorem Between.step (step : Step C s event t) {x : NodeId} (between : s.Between x) :
    t.Between x ∨ ∃ desc, s.merging event = some [Contact.fromDesc desc] ∧ desc.nodeId = x := by
  obtain ⟨j, desc, here, named⟩ := between
  by_cases own : event = .handle j
  · exact .inr ⟨desc, by simp only [own, merging, here], named⟩
  · exact .inl ⟨j, desc, (step.merges j desc).mpr (.inl ⟨here, own⟩), named⟩

theorem between_of_storing (step : Step C s event t) {desc : Descriptor} (stores : s.storing C event = some desc) :
    t.Between desc.nodeId := by
  cases event with
  | handle j => exact ⟨j, desc, (step.merges j desc).mpr (.inr ⟨rfl, stores⟩), rfl⟩
  | receive | task => cases stores

theorem Step.settled (step : Step C s event t) (arranged : s.node.kad.Arranged) (settled : s.Settled) : t.Settled := by
  intro x d here
  cases step.change with
  | none _ merges same =>
    rw [same] at here ⊢
    refine (settled x d here).imp_right (Or.imp_right fun between => ?_)
    refine (between.step step).resolve_right ?_
    rintro ⟨desc, merging, -⟩
    cases merges.symm.trans merging
  | stored stores merges kept =>
    rw [kept] at here ⊢
    rcases Table.get_insert_some here with ⟨rfl, -⟩ | ⟨-, old⟩
    · exact .inr (.inr (between_of_storing step stores))
    · refine (settled x d old).imp_right (Or.imp_right fun between => ?_)
      refine (between.step step).resolve_right ?_
      rintro ⟨desc, merging, -⟩
      cases merges.symm.trans merging
  | @merged contacts _ merges merged =>
    rw [merged] at here ⊢
    have place (settled : x ∈ ids s.node.kad.rt ∪ ids contacts ∨
        x ∉ nearest (dist · s.node.kad.id) 64 (insert x (ids s.node.kad.rt))) := arranged.no_place settled
    rcases settled x d here with known | none | between
    · exact (place (.inl (Finset.mem_union_left _ known))).imp_right .inl
    · exact (place (.inr none)).imp_right .inl
    · rcases between.step step with still | ⟨desc, merging, rfl⟩
      · exact .inr (.inr still)
      · cases merges.symm.trans merging
        exact (place (.inl (Finset.mem_union_right _ (mem_ids.mpr ⟨_, List.mem_singleton_self _, rfl⟩)))).imp_right .inl

theorem Signed.step (signed : s.Signed) (step : Such (Step C) (KnownRight C) s event t) : t.Signed :=
  ⟨step.1.arranged signed.arranged, step.1.settled signed.arranged signed.settled,
    (agrees_iff_knownRight signed step.1).mp step.2⟩

theorem signed_spawn {identity : NodeIdentity C} {ownDesc : Descriptor} (signed : Descriptor.SignedBy identity ownDesc) :
    (spawn identity ownDesc).Signed := by
  obtain ⟨named, -, -, -, -, v4⟩ := signed.fields
  refine ⟨DhtNode.arranged_spawn signed, ?_, ?_⟩
  · intro x d here
    rcases Table.get_insert_some here with ⟨rfl, -⟩ | ⟨-, old⟩
    · exact .inl (mem_ids.mpr ⟨_, List.mem_singleton_self _, named⟩)
    · cases old
  · intro c member d here
    rw [List.mem_singleton.mp member] at here ⊢
    rcases Table.get_insert_some here with ⟨-, rfl⟩ | ⟨-, old⟩
    · exact Contact.addr_fromDesc v4
    · cases old

/-- Under any datagrams and any schedule of handlers and tasks, the table has the signed address of every stored node
it names exactly as long as every STORE finds its node under the address it brings, or not at all, and nothing else
brings the node in between its two locks under another address. -/
theorem agrees_iff (identity : NodeIdentity C) (ownDesc : Descriptor) (signed : Descriptor.SignedBy identity ownDesc)
    (events : List ServingEvent) (t : Serving) :
    Run (Such (Step C) fun _ _ after => after.node.kad.Agrees) (spawn identity ownDesc) events t ↔
      Run (Such (Step C) (KnownRight C)) (spawn identity ownDesc) events t :=
  (Run.such_iff Signed (fun _ _ _ signed step => signed.step step)
    (fun _ _ _ signed step => agrees_iff_knownRight signed step) (signed_spawn signed)).symm

end Serving

namespace Transparent

open Nbf.Crypto.Transparent

theorem first_store_right {data : List UInt8} (decoded : rpcDecode crates (recvFrom data) = .ok (.store (descriptor 20 9101))) :
    ∃ t, Run (Such (Serving.Step crates) (Serving.KnownRight crates)) (.spawn (identity 1) (descriptor 1 9100))
        [.receive 0 known.addr data, .handle 0, .handle 0] t ∧ known.nodeId ∈ ids t.node.kad.rt ∧
      t.node.kad.store.get known.nodeId = some (descriptor 20 9101) := by
  obtain ⟨received, kept, merged⟩ := Serving.store_steps (s := ⟨alone, .empty⟩) (j := 0) rfl known.addr decoded
  have stores : Serving.KnownRight crates ⟨alone, Table.empty.insert 0 (.begin known.addr (recvFrom data))⟩ (.handle 0)
      ⟨{ alone with kad := alone.kad.keep (descriptor 20 9101) }, Table.empty.insert 0 (.merge (descriptor 20 9101))⟩ := by
    refine ⟨fun desc storing c member named => ?_, fun contacts merging => ?_⟩
    · simp only [Serving.storing, Table.get_insert_self, decoded, Option.some.injEq] at storing
      rw [List.mem_singleton.mp member, ← storing] at named
      exact absurd named (by decide)
    · simp [Serving.merging] at merging
  have first := Run.single (show Such _ (Serving.KnownRight crates) _ _ _ from
    ⟨received, by simp [Serving.storing], by simp [Serving.merging]⟩)
  refine ⟨_, (first.snoc ⟨kept, stores⟩).snoc ⟨merged, ?_, ?_⟩, ?_, Table.get_insert_self ..⟩
  · intro desc storing
    simp [Serving.storing] at storing
  · intro contacts merging c taken _ d here
    simp only [Serving.merging, Table.get_insert_self, Option.some.injEq] at merging
    have own : c = Contact.fromDesc (descriptor 20 9101) :=
      List.mem_singleton.mp (List.mem_of_find?_eq_some (merging ▸ taken.first))
    rw [own] at here ⊢
    have stored : some (descriptor 20 9101) = some d := (Table.get_insert_self ..).symm.trans here
    rw [← Option.some.inj stored]
    decide
  · have arranged : (alone.kad.keep (descriptor 20 9101)).Arranged :=
      (DhtNode.arranged_spawn (descriptor_signed 1 9100)).keep _
    have there : known.nodeId ∈ ids ((alone.kad.keep (descriptor 20 9101)).tryMerge [known]).rt := by
      rw [arranged.ids_tryMerge, nearest_of_card_le (by decide)]
      exact Finset.mem_union_right _ (mem_ids.mpr ⟨known, by simp, rfl⟩)
    exact there

/-- What the STORE brings is in the table under its own address. -/
theorem alone_agrees : ∃ events t, Run (Such (Serving.Step crates) fun _ _ after => after.node.kad.Agrees)
    (.spawn (identity 1) (descriptor 1 9100)) events t ∧ known.nodeId ∈ ids t.node.kad.rt ∧
    t.node.kad.store.get known.nodeId = some (descriptor 20 9101) := by
  obtain ⟨data, decoded, -, -⟩ := alone_learns
  obtain ⟨t, run, there, stored⟩ := first_store_right decoded
  exact ⟨_, t, (Serving.agrees_iff (identity 1) (descriptor 1 9100) (descriptor_signed 1 9100) _ t).mpr run, there, stored⟩

/-- A node that comes back under another port stores its new descriptor, and is known under the old address. -/
theorem old_address_kept : ∃ events t, Run (Serving.Step crates) (.spawn (identity 1) (descriptor 1 9100)) events t ∧
    known ∈ t.node.kad.rt ∧ t.node.kad.store.get known.nodeId = some (descriptor 20 9205) ∧
    (descriptor 20 9205).Verified crates ∧ known.addr ≠ (descriptor 20 9205).dhtAddr := by
  obtain ⟨data, decoded, table, -⟩ := alone_learns
  have verified := (descriptor_signed 20 9205).verified lawful
  obtain ⟨again, -, decoded'⟩ := rpcDecode_recvFrom (by decide) (rpcDecode_store verified)
  have first := DhtNode.Step.receive (C := crates) alone known.addr data
  have arranged := first.arranged (DhtNode.arranged_spawn (descriptor_signed 1 9100))
  have change : ((alone.receive crates known.addr data).receive crates (descriptor 20 9205).dhtAddr again).kad =
      ((alone.receive crates known.addr data).kad.keep (descriptor 20 9205)).tryMerge [Contact.fromDesc (descriptor 20 9205)] := by
    rw [DhtNode.receive, decoded']
    rfl
  have kept : known.nodeId ∈ ids (((alone.receive crates known.addr data).kad.keep (descriptor 20 9205)).tryMerge
      [Contact.fromDesc (descriptor 20 9205)]).rt := by
    rw [(arranged.keep _).ids_tryMerge, Kademlia.keep, table, nearest_of_card_le (by decide)]
    exact Finset.mem_union_left _ (mem_ids.mpr ⟨known, by simp, rfl⟩)
  have there : known ∈ ((alone.receive crates known.addr data).kad.keep (descriptor 20 9205)).rt := by
    rw [Kademlia.keep, table]
    simp
  obtain ⟨events, run⟩ := Serving.serves ((Run.single first).snoc (.receive _ (descriptor 20 9205).dhtAddr again))
  refine ⟨events, _, run, ?_, ?_, verified, by decide⟩
  · rw [change]
    exact (arranged.keep _).stays there kept
  · rw [change]
    exact Table.get_insert_self ..

end Transparent
end Nbf.Dht

import Nbf.Library.Lists
import Nbf.Crypto.Transparent

/-! The header `build_header` returns is the header of a plan, and the hops of
its route peel it in step with the origin. -/

set_option autoImplicit false

namespace Nbf.Crypto

open Nbf.Library

variable {C : Crates}

namespace Plan

theorem exists_plan (route : List Descriptor) (acc : C.Scalar) (rng : C.Rng)
    (kems : List (Octets ctLen × Octets 32)) (len : kems.length = route.length) :
    ∃ plan : List (Plan C), plan.map desc = route ∧ Coherent acc plan ∧
      plan.map (fun hop => (hop.x, hop.ssX)) = (blindRoute C route acc rng).1 ∧
      plan.map (fun hop => (hop.ct, hop.ssKem)) = kems := by
  -- Along the one pass of the origin, which carries the accumulator and the generator.
  induction route generalizing acc rng kems with
  | nil =>
    have none := List.length_eq_zero_iff.mp len
    exact ⟨[], rfl, trivial, rfl, none.symm⟩
  | cons d rest ih =>
    obtain ⟨kem, kems, rfl⟩ := List.exists_cons_of_length_eq_add_one len
    obtain ⟨x, rng', drawn⟩ : ∃ x rng', C.scalarRandom rng = (x, rng') := ⟨_, _, rfl⟩
    let hop : Plan C := ⟨d, x, C.mulPoint d.sphinxPub (x * acc), kem.1, kem.2⟩
    obtain ⟨plan, descs, coherent, pairs, secrets⟩ :=
      ih (acc * hop.factor acc) rng' kems (Nat.succ.inj len)
    refine ⟨hop :: plan, by rw [List.map_cons, descs], ⟨rfl, coherent⟩, ?_, by rw [List.map_cons, secrets]⟩
    rw [List.map_cons, pairs]
    simp only [blindRoute, drawn]
    rfl

theorem layersOf_plan (plan : List (Plan C)) :
    layersOf (plan.map desc) (plan.map ssX) (plan.map ct) = layers plan := by
  induction plan with
  | nil => rfl
  | cons hop rest ih => simp only [List.map_cons, layersOf, layers, List.head?_map, ih]

theorem keys_plan (tag : Octets 16) (plan : List (Plan C)) :
    List.zipWith (fun ssX ssKem => deriveTrafficKeys C ssX ssKem tag) (plan.map ssX) (plan.map ssKem) =
      plan.map (keys tag) := by
  induction plan with
  | nil => rfl
  | cons hop rest ih => simp only [List.map_cons, List.zipWith_cons_cons, ih, keys]

end Plan

theorem encapRoute_ok (laws : C.Lawful) {ids : List (NodeIdentity C)} {route : List Descriptor}
    (generated : ∀ id ∈ ids, id.Generated) (signed : List.Forall₂ Descriptor.SignedBy ids route) (rng : C.Rng) :
    ∃ kems, (encapRoute C route rng).1 = .ok kems ∧
      List.Forall₂ (fun id kem => kemDecap C id.kemSk kem.1 = .ok kem.2) ids kems := by
  induction signed generalizing rng with
  | nil => exact ⟨[], rfl, .nil⟩
  | @cons id d ids route head _ ih =>
    obtain ⟨seed, pair⟩ := (generated id List.mem_cons_self).kem
    obtain ⟨ct, ss, encap, decap⟩ := laws.kem_agree seed rng
    rw [pair] at encap decap
    obtain ⟨kems, rest, opens⟩ := ih (fun other member => generated other (List.mem_cons_of_mem _ member))
      (kemEncap C d.kemPk rng).2
    refine ⟨(ct, ss) :: kems, ?_, .cons decap opens⟩
    have step : kemEncap C d.kemPk rng = (.ok (ct, ss), (kemEncap C d.kemPk rng).2) := by
      rw [head.fields.2.2.2.2.1]
      exact Prod.ext encap rfl
    rw [encapRoute, step]
    simp [rest]

def Plan.Peels (id : NodeIdentity C) (hop : Plan C) : Prop :=
  id.sphinxPub = hop.desc.sphinxPub ∧ kemDecap C id.kemSk hop.ct = .ok hop.ssKem

/-- A plan the hops `ids` can peel from end to end. -/
structure Plan.Valid (ids : List (NodeIdentity C)) (plan : List (Plan C)) : Prop where
  coherent : Plan.Coherent 1 plan
  peels : List.Forall₂ Plan.Peels ids plan
  few : plan.length < 256
  routable : ∀ hop ∈ plan, Plan.Routable hop.desc

/-- Building succeeds on an honest route, and what it returns is described by a plan for it. -/
theorem buildHeader_plan (laws : C.Lawful) {ids : List (NodeIdentity C)} {route : List Descriptor}
    (honest : HonestRoute ids route) (tag : Octets 16) (rng : C.Rng) :
    ∃ (plan : List (Plan C)) (built : BuiltHeader), (buildHeader C route tag rng).1 = .ok built ∧
      plan.map Plan.desc = route ∧ Plan.Valid ids plan ∧ built.header = Plan.header tag 1 plan ∧ built.tag = tag ∧
      built.fwdKeys = plan.map (fun hop => (hop.keys tag).1) ∧
      built.bwdKeys = plan.map (fun hop => (hop.keys tag).2) ∧
      route.head?.map Descriptor.cellAddr = some built.firstAddr := by
  have lengths := honest.signed.length_eq
  have nonempty := honest.nonempty
  have short := honest.short
  obtain ⟨kems, encapped, opens⟩ := encapRoute_ok laws honest.generated honest.signed (blindRoute C route 1 rng).2
  obtain ⟨plan, descs, coherent, pairs, secrets⟩ :=
    Plan.exists_plan route 1 rng kems (opens.length_eq.symm.trans lengths)
  cases route with
  | nil =>
    rw [List.length_nil] at lengths
    omega
  | cons first rest =>
    have fits : ¬ maxHops < (first :: rest).length := by omega
    let built : BuiltHeader :=
      { header := Plan.header tag 1 plan, tag, fwdKeys := plan.map (fun hop => (hop.keys tag).1),
        bwdKeys := plan.map (fun hop => (hop.keys tag).2), firstAddr := first.cellAddr }
    have keyed : List.Forall₂ (fun id d => id.sphinxPub = d.sphinxPub) ids (first :: rest) :=
      honest.signed.imp fun _ _ signed => signed.fields.2.2.2.1.symm
    rw [← descs, List.forall₂_map_right_iff] at keyed
    have peeled := opens
    rw [← secrets, List.forall₂_map_right_iff] at peeled
    have valid : Plan.Valid ids plan :=
      { coherent
        peels := forall₂_and keyed peeled
        few := by
          rw [← List.length_map (f := Plan.desc), descs, ← lengths]
          exact Nat.lt_of_le_of_lt short (by decide)
        routable := fun hop member => honest.routable hop.desc (descs ▸ List.mem_map_of_mem member) }
    refine ⟨plan, built, ?_, descs, valid, rfl, rfl, rfl, rfl, rfl⟩
    have ssXs : (blindRoute C (first :: rest) 1 rng).1.map (·.2) = plan.map Plan.ssX := by
      rw [← pairs, List.map_map]; rfl
    have alphas : ((blindRoute C (first :: rest) 1 rng).1.map fun p => C.scalarToBytes p.1) =
        plan.map fun hop => C.scalarToBytes (hop.x * 1) := by
      rw [← pairs, List.map_map]; simp
    have cts : kems.map (·.1) = plan.map Plan.ct := by rw [← secrets, List.map_map]; rfl
    have sss : kems.map (·.2) = plan.map Plan.ssKem := by rw [← secrets, List.map_map]; rfl
    have layered : layersOf (first :: rest) (plan.map Plan.ssX) (plan.map Plan.ct) = Plan.layers plan := by
      rw [← Plan.layersOf_plan, descs]
    simp only [buildHeader, fits, if_false, encapped, Checked.ok_bind, ssXs, alphas, cts, sss, layered,
      Plan.keys_plan, List.map_map, Checked.pure_eq]
    rfl

/-- The header as hop `i` sees it: each relay before it hands on its `new_header`. -/
def headerSeen (C : Crates) : List (NodeIdentity C) → List UInt8 → Nat → Option (List UInt8)
  | [], _, _ => none
  | _ :: _, header, 0 => some header
  | id :: rest, header, i + 1 =>
    match processHeader C id header with
    | .ok (.relay _ _ _ _ _ newHeader) => headerSeen C rest newHeader i
    | _ => none

/-- The header chain: hop `i` sees the header of the rest of the plan. -/
theorem Plan.headerSeen_drop (laws : C.Lawful) (tag : Octets 16) {ids : List (NodeIdentity C)} {plan : List (Plan C)}
    (peels : List.Forall₂ Plan.Peels ids plan) (acc : C.Scalar) (coherent : Plan.Coherent acc plan)
    (few : plan.length < 256) (routable : ∀ hop ∈ plan, Plan.Routable hop.desc) (i : Nat) (lt : i < ids.length) :
    ∃ acc', headerSeen C ids (Plan.header tag acc plan) i = some (Plan.header tag acc' (plan.drop i)) ∧
      Plan.Coherent acc' (plan.drop i) := by
  -- Every hop hands on the header of the plan behind it, under the next accumulator.
  induction peels generalizing acc i with
  | nil => simp at lt
  | @cons id hop ids plan head tail ih =>
    cases i with
    | zero => exact ⟨acc, rfl, coherent⟩
    | succ i =>
      have later : i < ids.length := Nat.lt_of_succ_lt_succ lt
      have peeled := Plan.processHeader_header laws tag acc hop plan coherent few
        (fun next member => routable next (List.mem_cons_of_mem _ member)) id head.1 hop.ssKem head.2
      cases tail with
      | nil => simp at later
      | cons head' tail' =>
        obtain ⟨acc', seen, coherent'⟩ := ih (acc * hop.factor acc) coherent.2
          (by simp only [List.length_cons] at few ⊢; omega)
          (fun next member => routable next (List.mem_cons_of_mem _ member)) i later
        refine ⟨acc', ?_, coherent'⟩
        rw [headerSeen, peeled]
        exact seen

theorem Plan.peel_at (laws : C.Lawful) (tag : Octets 16) {ids : List (NodeIdentity C)} {plan : List (Plan C)}
    (valid : Plan.Valid ids plan) {i : Nat} {hop : Plan C} (at_i : plan[i]? = some hop) :
    ∃ acc header, headerSeen C ids (Plan.header tag 1 plan) i = some header ∧
      ∀ id : NodeIdentity C, id.sphinxPub = hop.desc.sphinxPub → ∀ ssKem, kemDecap C id.kemSk hop.ct = .ok ssKem →
        processHeader C id header = .ok (Plan.outcome tag acc hop ssKem (plan.drop (i + 1))) := by
  have lt : i < ids.length := by
    rw [valid.peels.length_eq]
    exact (List.getElem?_eq_some_iff.mp at_i).1
  obtain ⟨acc, seen, coherent⟩ :=
    Plan.headerSeen_drop laws tag valid.peels 1 valid.coherent valid.few valid.routable i lt
  rw [drop_eq_cons at_i] at seen coherent
  refine ⟨acc, _, seen, fun id pub ssKem decap => ?_⟩
  have shorter : (plan.drop (i + 1)).length + 1 < 256 := by
    have few := valid.few
    have here := (List.getElem?_eq_some_iff.mp at_i).1
    rw [List.length_drop]
    omega
  exact Plan.processHeader_header laws tag acc hop _ coherent shorter
    (fun next member => valid.routable next (List.mem_of_mem_drop member)) id pub ssKem decap

def Layer.nextLinkPub (layer : Layer) : Octets 32 :=
  ⟨(layer.info.bytes.drop 26).take 32, by simp [layerInfoLen, ctLen]⟩

theorem nextLinkPub_layerInfo (ssX : Octets 32) (nd : Descriptor) (ct : Octets ctLen) :
    (Layer.mk ssX (layerInfo (some nd) ct)).nextLinkPub = nd.linkPub := by
  have split : (layerInfo (some nd) ct).bytes =
      (nd.nodeId.bytes ++ ((nd.cellAddr.ip.v4Bytes?.getD (.zeros 4)).bytes ++ u16Le nd.cellAddr.port)) ++
        (nd.linkPub.bytes ++ ((Octets.zeros 6).bytes ++ ct.bytes)) := by
    simp [layerInfo]
  have front : (nd.nodeId.bytes ++ ((nd.cellAddr.ip.v4Bytes?.getD (.zeros 4)).bytes ++ u16Le nd.cellAddr.port)).length = 26 := by
    simp
  apply Octets.ext
  simp only [Layer.nextLinkPub, split]
  rw [List.drop_left' front]
  exact List.take_left' nd.linkPub.size

theorem Plan.layer_at (laws : C.Lawful) (tag : Octets 16) {ids : List (NodeIdentity C)} {plan : List (Plan C)}
    (valid : Plan.Valid ids plan) {i : Nat} {hop next : Plan C} (at_i : plan[i]? = some hop)
    (next_i : plan[i + 1]? = some next) {seenHeader : List UInt8}
    (seen : headerSeen C ids (Plan.header tag 1 plan) i = some seenHeader) :
    ∃ slots layer behind, seenHeader = encodeHeader tag slots (nestLayers C tag (layer :: behind)) ∧
      layer.nextLinkPub = next.desc.linkPub := by
  have lt : i < ids.length := by
    rw [valid.peels.length_eq]
    exact (List.getElem?_eq_some_iff.mp at_i).1
  obtain ⟨acc, same, -⟩ := Plan.headerSeen_drop laws tag valid.peels 1 valid.coherent valid.few valid.routable i lt
  rw [seen, Option.some.injEq] at same
  have shape : seenHeader = encodeHeader tag ((plan.drop i).map fun later => C.scalarToBytes (later.x * acc))
      (nestLayers C tag (⟨hop.ssX, layerInfo (some next.desc) hop.ct⟩ :: layers (plan.drop (i + 1)))) := by
    rw [same, Plan.header, drop_eq_cons at_i, drop_eq_cons next_i]
    rfl
  exact ⟨_, _, _, shape, nextLinkPub_layerInfo hop.ssX next.desc hop.ct⟩

/-- Origin and hops agree. On every honest route, for every tag and every state of the generator,
each intermediate hop relays to the hop after it, the last hop is the terminal, and each of them
derives the traffic keys the origin keeps for it. -/
theorem header_agreement (laws : C.Lawful) (ids : List (NodeIdentity C)) (route : List Descriptor)
    (honest : HonestRoute ids route) (tag : Octets 16) (rng : C.Rng) :
    ∃ built, (buildHeader C route tag rng).1 = .ok built ∧
      ∀ i id, ids[i]? = some id → ∃ header kFwd kBwd, headerSeen C ids built.header i = some header ∧
        built.fwdKeys[i]? = some kFwd ∧ built.bwdKeys[i]? = some kBwd ∧
        (i + 1 = ids.length → processHeader C id header = .ok (.terminal tag kFwd kBwd)) ∧
        (∀ next, route[i + 1]? = some next → ∃ newHeader, processHeader C id header =
          .ok (.relay tag kFwd kBwd next.nodeId next.cellAddr newHeader)) := by
  obtain ⟨plan, built, ok, descs, valid, header, -, fwd, bwd, -⟩ := buildHeader_plan laws honest tag rng
  refine ⟨built, ok, fun i id at_i => ?_⟩
  obtain ⟨hop, hop_i, pub, decap⟩ := forall₂_getElem? valid.peels at_i
  obtain ⟨acc, seenHeader, seen, peel⟩ := Plan.peel_at laws tag valid hop_i
  have peeled := peel id pub hop.ssKem decap
  refine ⟨seenHeader, (hop.keys tag).1, (hop.keys tag).2, header ▸ seen, ?_, ?_, ?_, ?_⟩
  · rw [fwd, List.getElem?_map, hop_i, Option.map_some]
  · rw [bwd, List.getElem?_map, hop_i, Option.map_some]
  · intro last
    rw [valid.peels.length_eq] at last
    rw [peeled, List.drop_of_length_le (Nat.le_of_eq last.symm)]
    rfl
  · intro next next_i
    rw [← descs, List.getElem?_map, Option.map_eq_some_iff] at next_i
    obtain ⟨nextHop, nextHop_i, rfl⟩ := next_i
    rw [peeled, drop_eq_cons nextHop_i]
    exact ⟨_, rfl⟩

namespace Transparent

theorem pair_header_agreement : ∃ built header kFwd kBwd,
    (buildHeader crates pairRoute (.zeros 16) (7 : UInt8)).1 = .ok built ∧
      headerSeen crates pairIds built.header 1 = some header ∧ built.fwdKeys[1]? = some kFwd ∧
      built.bwdKeys[1]? = some kBwd ∧
      processHeader crates (identity 20) header = .ok (.terminal (.zeros 16) kFwd kBwd) := by
  obtain ⟨built, ok, hops⟩ := header_agreement lawful pairIds pairRoute pair_honest (.zeros 16) (7 : UInt8)
  obtain ⟨header, kFwd, kBwd, seen, fwd, bwd, last, -⟩ := hops 1 (identity 20) rfl
  exact ⟨built, header, kFwd, kBwd, ok, seen, fwd, bwd, last rfl⟩

def soloHeader : List UInt8 :=
  match (buildHeader crates [descriptor 1 9100] (.zeros 16) (7 : UInt8)).1 with
  | .ok built => built.header
  | _ => []

theorem solo_honest : HonestRoute [identity 1] [descriptor 1 9100] where
  generated := by
    simp only [List.forall_mem_cons]
    exact ⟨identity_generated 1, by simp⟩
  signed := .cons (descriptor_signed 1 9100) .nil
  nonempty := by decide
  short := by decide
  inner := by decide

theorem solo_peels : soloHeader.length = 1218 ∧
    ∃ kFwd kBwd, processHeader crates (identity 1) soloHeader = .ok (.terminal (.zeros 16) kFwd kBwd) := by
  obtain ⟨plan, built, ok, -, valid, header, -⟩ := buildHeader_plan lawful solo_honest (.zeros 16) (7 : UInt8)
  have same : soloHeader = Plan.header (.zeros 16) 1 plan := by rw [soloHeader, ok, ← header]
  obtain ⟨hop, rest, peels, tail, rfl⟩ := List.forall₂_cons_left_iff.mp valid.peels
  rw [List.forall₂_nil_left_iff.mp tail] at valid same
  have peeled := Plan.processHeader_header lawful (.zeros 16) 1 hop [] valid.coherent valid.few (by simp) (identity 1)
    peels.1 hop.ssKem peels.2
  rw [← same] at peeled
  exact ⟨by simp [same, Plan.length_header lawful, hdrFixed, layerLen, layerInfoLen, ctLen], _, _, peeled⟩

def pairHeader : List UInt8 :=
  match (buildHeader crates pairRoute (.zeros 16) (7 : UInt8)).1 with
  | .ok built => built.header
  | _ => []

theorem pair_peels : pairHeader.length = 2418 ∧ ∃ kFwd kBwd nextId newHeader,
    processHeader crates (identity 1) pairHeader = .ok (.relay (.zeros 16) kFwd kBwd nextId (localhost 9101) newHeader) := by
  obtain ⟨plan, built, ok, route, valid, header, -⟩ := buildHeader_plan lawful pair_honest (.zeros 16) (7 : UInt8)
  have same : pairHeader = Plan.header (.zeros 16) 1 plan := by rw [pairHeader, ok, ← header]
  obtain ⟨hop, rest, peels, others, rfl⟩ := List.forall₂_cons_left_iff.mp valid.peels
  obtain ⟨next, rest', -, tail, rfl⟩ := List.forall₂_cons_left_iff.mp others
  rw [List.forall₂_nil_left_iff.mp tail] at valid same route
  have peeled := Plan.processHeader_header lawful (.zeros 16) 1 hop [next] valid.coherent valid.few
    (fun later member => valid.routable later (List.mem_cons_of_mem _ member)) (identity 1) peels.1 hop.ssKem peels.2
  have addr : next.desc.cellAddr = localhost 9101 := by
    simp only [List.map_cons, List.map_nil, pairRoute, List.cons.injEq] at route
    rw [route.2.1]
    rfl
  rw [← same, Plan.outcome, addr] at peeled
  exact ⟨by simp [same, Plan.length_header lawful, hdrFixed, layerLen, layerInfoLen, ctLen], _, _, _, _, peeled⟩

end Transparent
end Nbf.Crypto

import Nbf.Library.Lists
import Nbf.Crypto.Sphinx

/-! Agreement between the origin's header and the hops that peel it.

`Plan` is what the origin knows about one hop after building; `planHeader` is the
header a hop sees when the product of the blinding factors of all hops before it
is `acc`. One peel turns the header of a plan into the header of its tail, with
that hop's factor multiplied into `acc`.
-/

set_option autoImplicit false

namespace Nbf.Crypto

open Nbf.Library

variable {C : Crates}

/-! ## One peel, on the encoded layout -/

theorem processHeader_encode (id : NodeIdentity C) (tag : Octets 16) (alpha : Octets 32)
    (slots : List (Octets 32)) (blob : List UInt8) (few : slots.length + 1 < 256)
    (sized : blob.length = (slots.length + 1) * layerLen) :
    processHeader C id (encodeHeader tag (alpha :: slots) blob) =
      (let nField := UInt8.ofNat (slots.length + 1)
       let ssX := C.mulPoint id.sphinxPub (C.fromBytesModOrder alpha)
       ((aeadOpen C (deriveHdrKey C ssX tag) (hdrNonce C tag nField) blob).mapErr fun _ => .sphinx) >>=
         layerOutcome C id tag nField ssX alpha ((alpha :: slots).flatMap Octets.bytes ++ blob)) := by
  have count : (UInt8.ofNat (slots.length + 1)).toNat = slots.length + 1 := by
    simpa using few
  have nonzero : UInt8.ofNat (slots.length + 1) ≠ 0 := by
    intro zero
    rw [zero] at count
    simp at count
  -- Each read of the parser, in the order of the fields.
  have tagAt : (Checked.arrayAt 16 (encodeHeader tag (alpha :: slots) blob) 2 : Checked CryptoError _) = .ok tag := by
    have split : encodeHeader tag (alpha :: slots) blob = [1, UInt8.ofNat (slots.length + 1)] ++
        (tag.bytes ++ ((alpha :: slots).flatMap Octets.bytes ++ blob)) := rfl
    rw [split]
    exact Checked.arrayAt_append tag rfl
  have bodyAt : (Checked.sliceFrom (encodeHeader tag (alpha :: slots) blob) hdrFixed : Checked CryptoError _) =
      .ok ((alpha :: slots).flatMap Octets.bytes ++ blob) := by
    have split : encodeHeader tag (alpha :: slots) blob =
        (1 :: UInt8.ofNat (slots.length + 1) :: tag.bytes) ++ ((alpha :: slots).flatMap Octets.bytes ++ blob) := by
      simp [encodeHeader]
    rw [split]
    exact Checked.sliceFrom_append (by simp [hdrFixed])
  have long : ¬ (encodeHeader tag (alpha :: slots) blob).length < hdrFixed := by
    simp [encodeHeader, hdrFixed]
  have verAt : (Checked.byteAt (encodeHeader tag (alpha :: slots) blob) 0 : Checked CryptoError _) = .ok 1 := rfl
  have nAt : (Checked.byteAt (encodeHeader tag (alpha :: slots) blob) 1 : Checked CryptoError _) =
      .ok (UInt8.ofNat (slots.length + 1)) := rfl
  have slotsLen : ((alpha :: slots).flatMap Octets.bytes).length = (slots.length + 1) * 32 :=
    length_flatMap_bytes (alpha :: slots)
  have bodyLen : ¬ ((alpha :: slots).flatMap Octets.bytes ++ blob).length ≠
      (slots.length + 1) * 32 + (slots.length + 1) * layerLen := by
    rw [List.length_append, slotsLen, sized]
    exact not_not_intro rfl
  have alphaAt : (Checked.arrayAt 32 ((alpha :: slots).flatMap Octets.bytes ++ blob) 0 : Checked CryptoError _) =
      .ok alpha := by
    rw [List.flatMap_cons, List.append_assoc]
    exact Checked.arrayAt_head alpha
  have tailAt : (Checked.sliceFrom ((alpha :: slots).flatMap Octets.bytes ++ blob) ((slots.length + 1) * 32) :
      Checked CryptoError _) = .ok blob := Checked.sliceFrom_append slotsLen.symm
  have blobAt : (Checked.slice blob 0 ((slots.length + 1) * layerLen) : Checked CryptoError _) = .ok blob :=
    Checked.slice_self sized.symm
  unfold processHeader
  rw [if_neg long]
  simp only [verAt, nAt, tagAt, bodyAt, Checked.ok_bind, ne_eq, not_true_eq_false, nonzero, or_self, if_false,
    count]
  rw [if_neg bodyLen]
  simp only [alphaAt, tailAt, blobAt, Checked.ok_bind]

theorem layerInfo_ct (next : Option Descriptor) (ct : Octets ctLen) (deeper : List UInt8) :
    (Checked.arrayAt ctLen ((layerInfo next ct).bytes ++ deeper) 64 : Checked CryptoError _) = .ok ct := by
  cases next with
  | none =>
    have split : (layerInfo none ct).bytes ++ deeper =
        (terminalId.bytes ++ (Octets.zeros 44).bytes) ++ (ct.bytes ++ deeper) := by
      simp [layerInfo]
    rw [split]
    exact Checked.arrayAt_append ct (by simp)
  | some nd =>
    have split : (layerInfo (some nd) ct).bytes ++ deeper =
        (nd.nodeId.bytes ++ ((nd.cellAddr.ip.v4Bytes?.getD (.zeros 4)).bytes ++
          (u16Le nd.cellAddr.port ++ (nd.linkPub.bytes ++ (Octets.zeros 6).bytes)))) ++ (ct.bytes ++ deeper) := by
      simp [layerInfo]
    rw [split]
    exact Checked.arrayAt_append ct (by simp)

theorem layerOutcome_terminal (id : NodeIdentity C) (tag : Octets 16) (ssX alpha : Octets 32)
    (body : List UInt8) (ct : Octets ctLen) (ssKem : Octets 32) (decap : kemDecap C id.kemSk ct = .ok ssKem) :
    layerOutcome C id tag 1 ssX alpha body (layerInfo none ct).bytes =
      .ok (.terminal tag (deriveTrafficKeys C ssX ssKem tag).1 (deriveTrafficKeys C ssX ssKem tag).2) := by
  have idAt : (Checked.arrayAt 20 (layerInfo none ct).bytes 0 : Checked CryptoError _) = .ok terminalId :=
    Checked.arrayAt_head terminalId
  have ctAt : (Checked.arrayAt ctLen (layerInfo none ct).bytes 64 : Checked CryptoError _) = .ok ct := by
    simpa using layerInfo_ct none ct []
  obtain ⟨ip, ipAt⟩ : ∃ ip, (Checked.arrayAt 4 (layerInfo none ct).bytes 20 : Checked CryptoError _) = .ok ip :=
    Checked.arrayAt_ok (by simp [layerInfoLen]; omega)
  obtain ⟨port, portAt⟩ : ∃ port, (Checked.arrayAt 2 (layerInfo none ct).bytes 24 : Checked CryptoError _) = .ok port :=
    Checked.arrayAt_ok (by simp [layerInfoLen]; omega)
  have one : (1 : UInt8).toNat = 1 := rfl
  unfold layerOutcome
  simp [one, idAt, ipAt, portAt, ctAt, decap]

theorem layerOutcome_relay (id : NodeIdentity C) (tag : Octets 16) (ssX alpha : Octets 32)
    (slots : List (Octets 32)) (blob deeper : List UInt8) (nd : Descriptor) (ip : Octets 4) (ct : Octets ctLen)
    (ssKem : Octets 32) (few : slots.length + 1 < 256) (sized : deeper.length = slots.length * layerLen)
    (inner : nd.nodeId ≠ terminalId) (v4 : nd.cellAddr.ip = .v4 ip) (decap : kemDecap C id.kemSk ct = .ok ssKem) :
    layerOutcome C id tag (UInt8.ofNat (slots.length + 1)) ssX alpha
        ((alpha :: slots).flatMap Octets.bytes ++ blob) ((layerInfo (some nd) ct).bytes ++ deeper) =
      .ok (.relay tag (deriveTrafficKeys C ssX ssKem tag).1 (deriveTrafficKeys C ssX ssKem tag).2
        nd.nodeId nd.cellAddr
        (encodeHeader tag (slots.map fun a =>
          C.scalarToBytes (C.fromBytesModOrder a * C.fromHash (ssX.bytes ++ alpha.bytes))) deeper)) := by
  have count : (UInt8.ofNat (slots.length + 1)).toNat = slots.length + 1 := by
    simpa using few
  -- The hop count goes down by one and does not wrap.
  have pred : UInt8.ofNat (slots.length + 1) - 1 = UInt8.ofNat slots.length := by
    apply UInt8.toNat.inj
    rw [UInt8.toNat_sub_of_le _ _ (by rw [UInt8.le_iff_toNat_le, count]; simp), count]
    simp
    omega
  have idAt : (Checked.arrayAt 20 ((layerInfo (some nd) ct).bytes ++ deeper) 0 : Checked CryptoError _) =
      .ok nd.nodeId := by
    simp only [layerInfo, List.append_assoc]
    exact Checked.arrayAt_head nd.nodeId
  have ipAt : (Checked.arrayAt 4 ((layerInfo (some nd) ct).bytes ++ deeper) 20 : Checked CryptoError _) =
      .ok ip := by
    simp only [layerInfo, v4, IpAddr.v4Bytes?, Option.getD_some, List.append_assoc]
    exact Checked.arrayAt_append ip nd.nodeId.size.symm
  have portAt : (Checked.arrayAt 2 ((layerInfo (some nd) ct).bytes ++ deeper) 24 : Checked CryptoError _) =
      .ok ⟨u16Le nd.cellAddr.port, length_u16Le _⟩ := by
    have split : (layerInfo (some nd) ct).bytes ++ deeper =
        (nd.nodeId.bytes ++ ip.bytes) ++ (u16Le nd.cellAddr.port ++
          (nd.linkPub.bytes ++ ((Octets.zeros 6).bytes ++ (ct.bytes ++ deeper)))) := by
      simp [layerInfo, v4, IpAddr.v4Bytes?]
    rw [split]
    exact Checked.arrayAt_append ⟨u16Le nd.cellAddr.port, length_u16Le _⟩ (by simp)
  -- The alphas behind the first one, which go on blinded.
  have restAt : (Checked.slice ((alpha :: slots).flatMap Octets.bytes ++ blob) 32 ((slots.length + 1) * 32) :
      Checked CryptoError _) = .ok (slots.flatMap Octets.bytes) := by
    rw [List.flatMap_cons, List.append_assoc]
    exact Checked.slice_append (by simp) (by simp; omega)
  have deeperAt : (Checked.sliceFrom ((layerInfo (some nd) ct).bytes ++ deeper) layerInfoLen :
      Checked CryptoError _) = .ok deeper := Checked.sliceFrom_append (layerInfo (some nd) ct).size.symm
  have len : ¬ ((layerInfo (some nd) ct).bytes ++ deeper).length ≠ layerInfoLen + slots.length * layerLen := by
    rw [List.length_append, Octets.length_bytes, sized]
    exact not_not_intro rfl
  have addr : (⟨.v4 ip, nd.cellAddr.port⟩ : SocketAddr) = nd.cellAddr := by rw [← v4]
  unfold layerOutcome
  simp only [count, Checked.sub_of_le (Nat.le_add_left 1 slots.length), Nat.add_sub_cancel, Checked.ok_bind]
  rw [if_neg len]
  simp only [idAt, ipAt, portAt, layerInfo_ct, decap, restAt, deeperAt, inner, Checked.ok_bind, if_false,
    chunksExact_flatMap (k := 32) (by decide), pred, u16OfLe_u16Le, addr, Checked.pure_eq]
  simp [encodeHeader]

/-! ## The origin's plan -/

/-- What the origin draws and derives for one hop. -/
structure Plan (C : Crates) where
  desc : Descriptor
  x : C.Scalar
  ssX : Octets 32
  ct : Octets ctLen
  ssKem : Octets 32

namespace Plan

def factor (hop : Plan C) (acc : C.Scalar) : C.Scalar :=
  C.fromHash (hop.ssX.bytes ++ (C.scalarToBytes (hop.x * acc)).bytes)

/-- Every secret is the one for the effective scalar at its place on the blinding chain. -/
def Coherent : C.Scalar → List (Plan C) → Prop
  | _, [] => True
  | acc, hop :: rest => hop.ssX = C.mulPoint hop.desc.sphinxPub (hop.x * acc) ∧ Coherent (acc * hop.factor acc) rest

def layers : List (Plan C) → List Layer
  | [] => []
  | hop :: rest => ⟨hop.ssX, layerInfo (rest.head?.map desc) hop.ct⟩ :: layers rest

def header (tag : Octets 16) (acc : C.Scalar) (plan : List (Plan C)) : List UInt8 :=
  encodeHeader tag (plan.map fun hop => C.scalarToBytes (hop.x * acc)) (nestLayers C tag (layers plan))

def keys (tag : Octets 16) (hop : Plan C) : Octets 32 × Octets 32 :=
  deriveTrafficKeys C hop.ssX hop.ssKem tag

def outcome (tag : Octets 16) (acc : C.Scalar) (hop : Plan C) (ssKem : Octets 32) :
    List (Plan C) → ProcessOutcome
  | [] => .terminal tag (deriveTrafficKeys C hop.ssX ssKem tag).1 (deriveTrafficKeys C hop.ssX ssKem tag).2
  | next :: rest => .relay tag (deriveTrafficKeys C hop.ssX ssKem tag).1 (deriveTrafficKeys C hop.ssX ssKem tag).2
      next.desc.nodeId next.desc.cellAddr (header tag (acc * hop.factor acc) (next :: rest))

@[simp] theorem length_layers (plan : List (Plan C)) : (layers plan).length = plan.length := by
  induction plan with
  | nil => rfl
  | cons hop rest ih => simp [layers, ih]

theorem length_nestLayers (laws : C.Lawful) (tag : Octets 16) (layers : List Layer) :
    (nestLayers C tag layers).length = layers.length * layerLen := by
  induction layers with
  | nil => simp [nestLayers]
  | cons layer rest ih =>
    have size : layerLen = 16 + layerInfoLen := rfl
    rw [nestLayers, laws.length_seal, List.length_append, ih, layer.info.size, List.length_cons, Nat.succ_mul]
    omega

theorem length_header (laws : C.Lawful) (tag : Octets 16) (acc : C.Scalar) (plan : List (Plan C)) :
    (header tag acc plan).length = hdrFixed + plan.length * (32 + layerLen) := by
  have slots := length_flatMap_bytes (plan.map fun hop => C.scalarToBytes (hop.x * acc))
  rw [List.length_map] at slots
  simp only [header, encodeHeader, List.length_cons, List.length_append, Octets.length_bytes, slots,
    length_nestLayers laws, length_layers, hdrFixed, Nat.mul_add]
  omega

/-- A descriptor a layer can name as the next hop. -/
def Routable (desc : Descriptor) : Prop := desc.nodeId ≠ terminalId ∧ ∃ ip, desc.cellAddr.ip = .v4 ip

/-- One hop peels its layer: any identity with the hop's public key and some KEM secret sees the
same next hop and the same next header. -/
theorem processHeader_header (laws : C.Lawful) (tag : Octets 16) (acc : C.Scalar) (hop : Plan C)
    (rest : List (Plan C)) (coherent : Coherent acc (hop :: rest)) (few : rest.length + 1 < 256)
    (routable : ∀ next ∈ rest, Routable next.desc) (id : NodeIdentity C)
    (pub : id.sphinxPub = hop.desc.sphinxPub) (ssKem : Octets 32) (decap : kemDecap C id.kemSk hop.ct = .ok ssKem) :
    processHeader C id (header tag acc (hop :: rest)) = .ok (outcome tag acc hop ssKem rest) := by
  have secret : C.mulPoint id.sphinxPub (C.fromBytesModOrder (C.scalarToBytes (hop.x * acc))) = hop.ssX := by
    rw [laws.scalar_canonical, pub, coherent.1]
  have nested : nestLayers C tag (layers (hop :: rest)) =
      aeadSeal C (deriveHdrKey C hop.ssX tag) (hdrNonce C tag (UInt8.ofNat (rest.length + 1)))
        ((layerInfo (rest.head?.map desc) hop.ct).bytes ++ nestLayers C tag (layers rest)) := by
    rw [layers, nestLayers, length_layers]
  have sized := length_nestLayers laws tag (layers (hop :: rest))
  rw [length_layers, List.length_cons] at sized
  have peeled := processHeader_encode id tag (C.scalarToBytes (hop.x * acc))
    (rest.map fun later => C.scalarToBytes (later.x * acc)) (nestLayers C tag (layers (hop :: rest)))
    (by simpa using few) (by simpa using sized)
  simp only [List.length_map, secret] at peeled
  rw [header, List.map_cons, peeled, nested, laws.open_seal, Checked.mapErr_ok, Checked.ok_bind]
  cases rest with
  | nil =>
    simp only [List.head?_nil, Option.map_none, layers, nestLayers, List.append_nil]
    exact layerOutcome_terminal id tag hop.ssX _ _ hop.ct ssKem decap
  | cons next later =>
    obtain ⟨named, ip, v4⟩ := routable next List.mem_cons_self
    have deep := length_nestLayers laws tag (layers (next :: later))
    rw [length_layers] at deep
    have relayed := layerOutcome_relay id tag hop.ssX (C.scalarToBytes (hop.x * acc))
      ((next :: later).map fun l => C.scalarToBytes (l.x * acc)) (nestLayers C tag (layers (hop :: next :: later)))
      (nestLayers C tag (layers (next :: later))) next.desc ip hop.ct ssKem (by simpa using few)
      (by simpa using deep) named v4 decap
    rw [List.length_map] at relayed
    rw [← nested]
    apply Eq.trans relayed
    -- Blinding an alpha multiplies the factor into the accumulator of all hops behind.
    have blinded : (((next :: later).map fun l => C.scalarToBytes (l.x * acc)).map fun a =>
          C.scalarToBytes (C.fromBytesModOrder a * C.fromHash (hop.ssX.bytes ++ (C.scalarToBytes (hop.x * acc)).bytes))) =
        (next :: later).map fun l => C.scalarToBytes (l.x * (acc * hop.factor acc)) := by
      rw [List.map_map]
      apply List.map_congr_left
      intro l _
      rw [Function.comp_apply, laws.scalar_canonical, factor, mul_assoc]
    rw [blinded]
    rfl

end Plan

/-- A route an origin may build: identities with the descriptors they signed for themselves. A
descriptor can only be signed at an IPv4 address. -/
structure HonestRoute (ids : List (NodeIdentity C)) (route : List Descriptor) : Prop where
  generated : ∀ id ∈ ids, id.Generated
  signed : List.Forall₂ Descriptor.SignedBy ids route
  nonempty : 1 ≤ ids.length
  short : ids.length ≤ maxHops
  inner : ∀ d ∈ route, d.nodeId ≠ terminalId

theorem HonestRoute.routable {ids : List (NodeIdentity C)} {route : List Descriptor}
    (honest : HonestRoute ids route) (d : Descriptor) (member : d ∈ route) : Plan.Routable d := by
  obtain ⟨i, lt, rfl⟩ := List.mem_iff_getElem.mp member
  have signed := (List.forall₂_iff_get.mp honest.signed).2 i (by rw [honest.signed.length_eq]; exact lt) lt
  exact ⟨honest.inner _ member, signed.fields.2.2.2.2.2⟩

end Nbf.Crypto

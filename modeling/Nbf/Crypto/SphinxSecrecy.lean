import Nbf.Crypto.SphinxAgreement

/-! What peeling a layer takes. The layer key comes from the hop's published point
and the alpha that stands in the header, so the routing of every layer can be read
without any private key; only the traffic keys depend on one. -/

set_option autoImplicit false

namespace Nbf.Crypto

open Nbf.Library

variable {C : Crates}

/-- The fields of an identity that its descriptor publishes are the same. -/
structure NodeIdentity.SamePublic (id' id : NodeIdentity C) : Prop where
  sphinxPub : id'.sphinxPub = id.sphinxPub
  kemPk : id'.kemPk = id.kemPk
  edPub : id'.edPub = id.edPub
  linkPub : id'.linkPub = id.linkPub

def ProcessOutcome.routing : ProcessOutcome → Option (NodeId × SocketAddr × List UInt8)
  | .terminal .. => none
  | .relay _ _ _ nextId nextAddr newHeader => some (nextId, nextAddr, newHeader)

/-- Decapsulation under a wrong key returns some other secret, never an error (FIPS 203). -/
def Crates.ImplicitRejection (C : Crates) : Prop := ∀ sk ct, ∃ ss, C.decapsulate sk ct = some ss

theorem Plan.routing_outcome (tag : Octets 16) (acc : C.Scalar) (hop : Plan C) (rest : List (Plan C))
    (ss ss' : Octets 32) : (Plan.outcome tag acc hop ss rest).routing = (Plan.outcome tag acc hop ss' rest).routing := by
  cases rest <;> rfl

/-- The layer of every hop opens for whoever knows the hop's public key. -/
theorem peel_without_secrets (laws : C.Lawful) (implicit : C.ImplicitRejection) {ids : List (NodeIdentity C)}
    {route : List Descriptor} (honest : HonestRoute ids route) {tag : Octets 16} {rng : C.Rng} {built : BuiltHeader}
    (ok : (buildHeader C route tag rng).1 = .ok built) {i : Nat} {id : NodeIdentity C} {header : List UInt8}
    (at_i : ids[i]? = some id) (seen : headerSeen C ids built.header i = some header)
    (id' : NodeIdentity C) (pub : id'.sphinxPub = id.sphinxPub) :
    ∃ out out', processHeader C id header = .ok out ∧ processHeader C id' header = .ok out' ∧
      out'.routing = out.routing := by
  obtain ⟨plan, built', ok', -, valid, shape, -⟩ := buildHeader_plan laws honest tag rng
  obtain rfl : built = built' := Checked.ok.inj (ok.symm.trans ok')
  obtain ⟨hop, hop_i, pub_i, decap⟩ := forall₂_getElem? valid.peels at_i
  obtain ⟨acc, header', seen', peel⟩ := Plan.peel_at laws tag valid hop_i
  rw [shape, seen', Option.some.injEq] at seen
  subst seen
  -- The wrong KEM key yields another secret, which enters the traffic keys only.
  obtain ⟨ss', wrong⟩ := implicit id'.kemSk hop.ct
  have decap' : kemDecap C id'.kemSk hop.ct = .ok ss' := by rw [kemDecap, wrong, Checked.ofOption_some]
  exact ⟨_, _, peel id pub_i _ decap, peel id' (pub.trans pub_i) _ decap', Plan.routing_outcome _ _ _ _ _ _⟩

/-- No header, at no hop, is closed to an identity that shares only the published fields of that
hop: processing succeeds and yields the next hop and the next header the hop itself obtains. -/
theorem peeling_takes_no_secret (laws : C.Lawful) (implicit : C.ImplicitRejection) (ids : List (NodeIdentity C))
    (route : List Descriptor) (honest : HonestRoute ids route) (tag : Octets 16) (rng : C.Rng) (built : BuiltHeader)
    (ok : (buildHeader C route tag rng).1 = .ok built) (i : Nat) (id : NodeIdentity C) (header : List UInt8)
    (at_i : ids[i]? = some id) (seen : headerSeen C ids built.header i = some header)
    (id' : NodeIdentity C) (same : id'.SamePublic id) :
    (processHeader C id' header).isError = false ∧
      ∃ out out', processHeader C id header = .ok out ∧ processHeader C id' header = .ok out' ∧
        out'.routing = out.routing := by
  obtain ⟨out, out', own, other, routing⟩ :=
    peel_without_secrets laws implicit honest ok at_i seen id' same.sphinxPub
  exact ⟨by rw [other]; rfl, out, out', own, other, routing⟩

namespace Transparent

theorem implicitRejection : crates.ImplicitRejection := fun _ _ => ⟨_, rfl⟩

def outsider : NodeIdentity crates := { identity 1 with sphinxPriv := (200 : UInt8), kemSk := (201 : UInt8) }

theorem outsider_samePublic : outsider.SamePublic (identity 1) := ⟨rfl, rfl, rfl, rfl⟩

theorem outsider_peels_first_layer : ∃ built out out',
    (buildHeader crates pairRoute (.zeros 16) (7 : UInt8)).1 = .ok built ∧
      processHeader crates (identity 1) built.header = .ok out ∧
      processHeader crates outsider built.header = .ok out' ∧ out'.routing = out.routing := by
  obtain ⟨-, built, ok, -⟩ := buildHeader_plan lawful pair_honest (.zeros 16) (7 : UInt8)
  obtain ⟨-, out, out', own, other, routing⟩ := peeling_takes_no_secret lawful implicitRejection pairIds pairRoute
    pair_honest (.zeros 16) (7 : UInt8) built ok 0 (identity 1) built.header rfl rfl outsider outsider_samePublic
  exact ⟨built, out, out', ok, own, other, routing⟩

/-- The first layer of a two-hop header opens for an identity with other private keys. -/
theorem secrets_not_needed :
    ¬ ∀ (C : Crates), C.Lawful → C.ImplicitRejection → ∀ ids route, HonestRoute ids route →
      ∀ tag rng built, (buildHeader C route tag rng).1 = .ok built →
      ∀ i id header, ids[i]? = some id → headerSeen C ids built.header i = some header →
      ∀ id' : NodeIdentity C, id'.SamePublic id → id'.sphinxPriv ≠ id.sphinxPriv → id'.kemSk ≠ id.kemSk →
        (processHeader C id' header).isError = true := by
  intro closed
  obtain ⟨-, built, ok, -⟩ := buildHeader_plan lawful pair_honest (.zeros 16) (7 : UInt8)
  have error := closed crates lawful implicitRejection pairIds pairRoute pair_honest (.zeros 16) (7 : UInt8) built
    ok 0 (identity 1) built.header rfl rfl outsider outsider_samePublic
    (show (200 : UInt8) ≠ 3 by decide) (show (201 : UInt8) ≠ 4 by decide)
  have first : pairIds[0]? = some (identity 1) := rfl
  obtain ⟨-, out', -, other, -⟩ := peel_without_secrets lawful implicitRejection pair_honest ok first rfl outsider rfl
  rw [other] at error
  cases error

end Transparent
end Nbf.Crypto

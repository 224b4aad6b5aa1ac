import Nbf.Crypto.Sphinx
import Nbf.Dht.Rpc
import Nbf.Net.Relay

/-! Every parser of network input comes to a value or an error.

Each proof walks its parser from the first length check on; what a later read
needs is a length that an earlier check or read has left.
-/

set_option autoImplicit false

namespace Nbf.Net

open Nbf.Library Nbf.Crypto Nbf.Dht

variable {C : Crates}

/-! ## Cells -/

theorem cmd_tryFrom_returns (v : UInt8) : (Cmd.tryFrom v).Returns := by
  unfold Cmd.tryFrom
  repeat apply Checked.returns_arm
  exact Checked.returns_error _

theorem rcmd_tryFrom_returns (v : UInt8) : (RCmd.tryFrom v).Returns := by
  unfold RCmd.tryFrom
  repeat apply Checked.returns_arm
  exact Checked.returns_error _

theorem cell_decode_returns (buf : List UInt8) : (Cell.decode buf).Returns := by
  unfold Cell.decode
  apply Checked.returns_guard
  intro whole
  have size : buf.length = 1280 := by simpa [cellLen] using whole
  apply Checked.Returns.bind (Checked.arrayAt_returns (by omega))
  intro lenBytes _
  apply Checked.returns_guard
  -- The length field is no longer than what is behind the header.
  intro fits
  have bound : (u16OfLe lenBytes.bytes).toNat ≤ 1272 := by simpa [cellData, cellLen, cellHdr] using fits
  apply Checked.Returns.bind (Checked.arrayAt_returns (by omega))
  intro cid _
  apply Checked.Returns.bind (Checked.byteAt_returns (by omega))
  intro cmdByte _
  apply Checked.Returns.bind (cmd_tryFrom_returns cmdByte)
  intro cmd _
  apply Checked.Returns.bind (Checked.byteAt_returns (by omega))
  intro flags _
  apply Checked.Returns.bind (Checked.slice_returns (by omega) (by omega))
  intro payload _
  exact Checked.returns_ok _

theorem parseFrag_returns (payload : List UInt8) : (parseFrag payload).Returns := by
  unfold parseFrag
  apply Checked.returns_guard
  intro long
  apply Checked.Returns.bind (Checked.arrayAt_returns (by omega))
  intro total _
  apply Checked.Returns.bind (Checked.arrayAt_returns (by omega))
  intro idx _
  apply Checked.Returns.bind (Checked.sliceFrom_returns (by omega))
  intro chunk _
  exact Checked.returns_ok _

theorem parseRelay_returns (payload : List UInt8) : (parseRelay payload).Returns := by
  unfold parseRelay
  apply Checked.returns_guard
  intro long
  apply Checked.Returns.bind (Checked.arrayAt_returns (by omega))
  intro seq _
  apply Checked.Returns.bind (Checked.byteAt_returns (by omega))
  intro rcmdU8 _
  apply Checked.Returns.bind (rcmd_tryFrom_returns rcmdU8)
  intro rcmd _
  apply Checked.Returns.bind (Checked.arrayAt_returns (by omega))
  intro stream _
  apply Checked.Returns.bind (Checked.sliceFrom_returns (by omega))
  intro onion _
  exact Checked.returns_ok _

/-! ## Headers -/

theorem layerOutcome_returns (id : NodeIdentity C) (tag : Octets 16) {nField : UInt8} (some : nField ≠ 0) (ssX alphaBytes : Octets 32)
    {body : List UInt8} (opened : List UInt8) (size : body.length = nField.toNat * 32 + nField.toNat * layerLen) :
    (layerOutcome C id tag nField ssX alphaBytes body opened).Returns := by
  have positive : 1 ≤ nField.toNat := Nat.pos_of_ne_zero fun zero => some (UInt8.toNat_inj.mp zero)
  unfold layerOutcome
  simp only [Checked.sub_of_le positive, Checked.ok_bind]
  apply Checked.returns_guard
  -- The plaintext holds the information of one layer and the blobs behind it.
  intro layered
  rw [ne_eq, not_not] at layered
  have long : 64 + ctLen ≤ opened.length := by
    rw [layered, layerInfoLen]
    omega
  apply Checked.Returns.bind (Checked.arrayAt_returns (by omega))
  intro nextId _
  apply Checked.Returns.bind (Checked.arrayAt_returns (by omega))
  intro ip _
  apply Checked.Returns.bind (Checked.arrayAt_returns (by omega))
  intro port _
  apply Checked.Returns.bind (Checked.arrayAt_returns long)
  intro ct _
  apply Checked.Returns.bind (Checked.returns_ofOption _ _)
  intro ssKem _
  apply Checked.returns_arm
  apply Checked.Returns.bind (Checked.slice_returns (by omega) (by omega))
  intro rest _
  apply Checked.Returns.bind (Checked.sliceFrom_returns (by rw [layerInfoLen]; omega))
  intro deeper _
  exact Checked.returns_ok _

theorem processHeader_returns (id : NodeIdentity C) (header : List UInt8) : (processHeader C id header).Returns := by
  unfold processHeader
  apply Checked.returns_guard
  intro long
  have fixed : 18 ≤ header.length := by simpa [hdrFixed] using long
  apply Checked.Returns.bind (Checked.byteAt_returns (by omega))
  intro ver _
  apply Checked.Returns.bind (Checked.byteAt_returns (by omega))
  intro nField _
  apply Checked.returns_guard
  intro marked
  apply Checked.Returns.bind (Checked.arrayAt_returns (by omega))
  intro tag _
  apply Checked.Returns.bind (Checked.sliceFrom_returns (by rw [hdrFixed]; omega))
  intro body _
  apply Checked.returns_guard
  -- One alpha slot and one layer for each hop that the header counts.
  intro sized
  rw [ne_eq, not_not] at sized
  have some : nField ≠ 0 := fun zero => marked (.inr zero)
  have positive : 1 ≤ nField.toNat := Nat.pos_of_ne_zero fun zero => some (UInt8.toNat_inj.mp zero)
  apply Checked.Returns.bind (Checked.arrayAt_returns (by omega))
  intro alphaBytes _
  apply Checked.Returns.bind (Checked.sliceFrom_returns (by omega))
  intro tail tailAt
  have behind := Checked.length_of_sliceFrom tailAt
  apply Checked.Returns.bind (Checked.slice_returns (Nat.zero_le _) (by omega))
  intro myBlob _
  apply Checked.Returns.bind ((Checked.returns_ofOption _ _).mapErr _)
  intro opened _
  exact layerOutcome_returns id tag some _ alphaBytes opened sized

/-! ## Descriptors and DHT messages -/

theorem fromSignedBytes_returns (bytes : List UInt8) : (Descriptor.fromSignedBytes C bytes).Returns := by
  unfold Descriptor.fromSignedBytes
  apply Checked.returns_guard
  intro whole
  have size : bytes.length = 1385 := by simpa [Descriptor.descLen] using whole
  apply Checked.Returns.bind (Checked.slice_returns (by omega) (by omega))
  intro head _
  apply Checked.Returns.bind (Checked.byteAt_returns (by omega))
  intro version _
  apply Checked.returns_guard
  intro _
  apply Checked.Returns.bind (Checked.arrayAt_returns (by omega))
  intro nodeId _
  apply Checked.Returns.bind (Checked.arrayAt_returns (by omega))
  intro edPub _
  apply Checked.Returns.bind (Checked.arrayAt_returns (by omega))
  intro linkPub _
  apply Checked.Returns.bind (Checked.arrayAt_returns (by omega))
  intro sphinxPub _
  apply Checked.Returns.bind (Checked.arrayAt_returns (by rw [size, kemPkLen]; omega))
  intro kemPk _
  apply Checked.Returns.bind (Checked.arrayAt_returns (by omega))
  intro ip _
  apply Checked.Returns.bind (Checked.arrayAt_returns (by omega))
  intro port _
  apply Checked.Returns.bind (Checked.arrayAt_returns (by omega))
  intro dhtPort _
  apply Checked.Returns.bind (Checked.arrayAt_returns (by omega))
  intro ts _
  apply Checked.Returns.bind (Checked.arrayAt_returns (by omega))
  intro sig _
  apply Checked.Returns.bind (Checked.slice_returns (by omega) (by rw [size, Descriptor.descLen]; omega))
  intro signed _
  apply Checked.returns_guard
  intro _
  apply Checked.returns_guard
  exact fun _ => Checked.returns_ok _

theorem rpcType_tryFrom_returns (v : UInt8) : (RpcType.tryFrom v).Returns := by
  unfold RpcType.tryFrom
  repeat apply Checked.returns_arm
  exact Checked.returns_error _

/-- Whatever the count, each turn of the loop looks for its 26 bytes before it reads them. -/
theorem decodeContacts_returns (body : List UInt8) (n o : Nat) : (decodeContacts body n o).Returns := by
  induction n generalizing o with
  | zero => exact Checked.returns_ok _
  | succ n ih =>
    unfold decodeContacts
    apply Checked.returns_guard
    intro long
    apply Checked.Returns.bind (Checked.arrayAt_returns (by omega))
    intro nodeId _
    apply Checked.Returns.bind (Checked.arrayAt_returns (by omega))
    intro ip _
    apply Checked.Returns.bind (Checked.arrayAt_returns (by omega))
    intro dhtPort _
    apply Checked.Returns.bind (ih (o + 26))
    intro rest _
    exact Checked.returns_ok _

theorem decodeBody_returns (t : RpcType) (body : List UInt8) : (decodeBody C t body).Returns := by
  cases t with
  | ping | pong =>
    apply Checked.returns_guard
    intro size
    apply Checked.Returns.bind (Checked.arrayAt_returns (by omega))
    intro nonce _
    exact Checked.returns_ok _
  | store =>
    apply Checked.Returns.bind ((fromSignedBytes_returns body).mapErr _)
    intro desc _
    exact Checked.returns_ok _
  | find =>
    apply Checked.returns_guard
    intro long
    apply Checked.Returns.bind (Checked.arrayAt_returns (by omega))
    intro key _
    apply Checked.Returns.bind (Checked.byteAt_returns (by omega))
    intro wantValue _
    exact Checked.returns_ok _
  | found =>
    apply Checked.returns_guard
    intro long
    apply Checked.Returns.bind (Checked.arrayAt_returns (by omega))
    intro count _
    apply Checked.Returns.bind (decodeContacts_returns body _ 2)
    rintro ⟨contacts, o⟩ _
    apply Checked.returns_guard
    intro more
    apply Checked.Returns.bind (Checked.byteAt_returns (by omega))
    intro hasValue _
    apply Checked.returns_arm
    apply Checked.returns_guard
    intro enough
    apply Checked.Returns.bind (Checked.slice_returns (by omega) (by omega))
    intro bytes _
    apply Checked.Returns.bind ((fromSignedBytes_returns bytes).mapErr _)
    intro value _
    exact Checked.returns_ok _

theorem rpcDecode_returns (data : List UInt8) : (rpcDecode C data).Returns := by
  unfold rpcDecode
  apply Checked.returns_guard
  intro long
  apply Checked.Returns.bind (Checked.slice_returns (by omega) (by omega))
  intro head _
  apply Checked.Returns.bind (Checked.byteAt_returns (by omega))
  intro typeByte _
  apply Checked.returns_guard
  intro _
  apply Checked.Returns.bind (rpcType_tryFrom_returns typeByte)
  intro t _
  apply Checked.Returns.bind (Checked.sliceFrom_returns (by omega))
  intro body _
  exact decodeBody_returns t body

/-- Whatever bytes come in, no read of a parser is out of bounds. -/
theorem parsers_never_panic (C : Crates) (id : NodeIdentity C) (bytes : List UInt8) :
    Cell.decode bytes ≠ .panic ∧ parseFrag bytes ≠ .panic ∧ parseRelay bytes ≠ .panic ∧
      processHeader C id bytes ≠ .panic ∧ rpcDecode C bytes ≠ .panic ∧ Descriptor.fromSignedBytes C bytes ≠ .panic :=
  ⟨cell_decode_returns bytes, parseFrag_returns bytes, parseRelay_returns bytes, processHeader_returns id bytes,
    rpcDecode_returns bytes, fromSignedBytes_returns bytes⟩

end Nbf.Net

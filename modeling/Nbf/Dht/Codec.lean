import Nbf.Crypto.Transparent
import Nbf.Dht.Rpc

/-! The two halves of the RPC codec against each other: what is encoded is read
back, and what is read has been encoded, but for a few lax comparisons.
-/

set_option autoImplicit false

namespace Nbf.Dht

open Nbf.Library Nbf.Crypto

variable {C : Crates}

/-! ## From a message to its bytes and back -/

def Accepted (C : Crates) (d : Descriptor) : Prop :=
  ∃ bytes d', (d.toBytes : Checked CryptoError _) = .ok bytes ∧ Descriptor.fromSignedBytes C bytes = .ok d'

theorem toBytes_inj {ε : Type} {d d' : Descriptor} {bytes : List UInt8} (one : (d.toBytes : Checked ε _) = .ok bytes)
    (two : (d'.toBytes : Checked ε _) = .ok bytes) : d = d' := by
  obtain ⟨nodeId, edPub, linkPub, sphinxPub, kemPk, ⟨ip, port⟩, dhtPort, ts, sig⟩ := d
  obtain ⟨nodeId', edPub', linkPub', sphinxPub', kemPk', ⟨ip', port'⟩, dhtPort', ts', sig'⟩ := d'
  cases ip with
  | v6 => cases one
  | v4 octets =>
    cases ip' with
    | v6 => cases two
    | v4 octets' =>
      have same := (Checked.ok.inj one).trans (Checked.ok.inj two).symm
      have fields := (List.cons.inj (List.append_cancel_left same)).2
      -- Field by field: the two sides are as long as each other in front of every cut.
      obtain ⟨nodeIdSame, fields⟩ := List.append_inj fields (by simp)
      obtain ⟨edPubSame, fields⟩ := List.append_inj fields (by simp)
      obtain ⟨linkPubSame, fields⟩ := List.append_inj fields (by simp)
      obtain ⟨sphinxPubSame, fields⟩ := List.append_inj fields (by simp)
      obtain ⟨kemPkSame, fields⟩ := List.append_inj fields (by simp)
      obtain ⟨ipSame, fields⟩ := List.append_inj fields (by simp)
      obtain ⟨portSame, fields⟩ := List.append_inj fields (by simp)
      obtain ⟨dhtPortSame, fields⟩ := List.append_inj fields (by simp)
      obtain ⟨tsSame, sigSame⟩ := List.append_inj fields (by simp)
      obtain rfl := u16Le_inj portSame
      obtain rfl := u16Le_inj dhtPortSame
      obtain rfl := u64Le_inj tsSame
      obtain rfl := Octets.ext nodeIdSame
      obtain rfl := Octets.ext edPubSame
      obtain rfl := Octets.ext linkPubSame
      obtain rfl := Octets.ext sphinxPubSame
      obtain rfl := Octets.ext kemPkSame
      obtain rfl := Octets.ext ipSame
      obtain rfl := Octets.ext sigSame
      rfl

theorem Accepted.verified {d : Descriptor} (accepted : Accepted C d) : d.Verified C := by
  obtain ⟨bytes, d', encoded, read⟩ := accepted
  obtain ⟨encoded', verified⟩ := Descriptor.fromSignedBytes_eq_ok (ε := CryptoError) read
  rwa [toBytes_inj encoded encoded']

theorem decodeBody_nonce (nonce : UInt64) : decodeBody C .ping (u64Le nonce) = .ok (.ping nonce) ∧
    decodeBody C .pong (u64Le nonce) = .ok (.pong nonce) := by
  have size : ¬ (u64Le nonce).length ≠ 8 := not_not_intro (length_u64Le nonce)
  have nonceAt : (Checked.arrayAt 8 (u64Le nonce) 0 : Checked DhtError _) = .ok ⟨u64Le nonce, length_u64Le _⟩ :=
    Checked.arrayAt_self ⟨u64Le nonce, length_u64Le _⟩
  constructor
  · rw [decodeBody, if_neg size, nonceAt, Checked.ok_bind, u64OfLe_u64Le, Checked.pure_eq]
  · rw [decodeBody, if_neg size, nonceAt, Checked.ok_bind, u64OfLe_u64Le, Checked.pure_eq]

theorem decodeBody_find (key : NodeId) (flag : UInt8) (rest : List UInt8) :
    decodeBody C .find (key.bytes ++ flag :: rest) = .ok (.find key (flag != 0)) := by
  have long : ¬ (key.bytes ++ flag :: rest).length < 21 := by
    rw [List.length_append, List.length_cons, Octets.length_bytes]
    omega
  have keyAt : (Checked.arrayAt 20 (key.bytes ++ flag :: rest) 0 : Checked DhtError _) = .ok key := Checked.arrayAt_head key
  have flagAt : (Checked.byteAt (key.bytes ++ flag :: rest) 20 : Checked DhtError _) = .ok flag :=
    Checked.byteAt_append key.size.symm
  rw [decodeBody, if_neg long, keyAt, Checked.ok_bind, flagAt, Checked.ok_bind, Checked.pure_eq]

/-- Every message of the five types comes back as it was encoded. -/
theorem rpcDecode_rpcEncode (msg : RpcMsg) (few : msg.contacts.length ≤ 65535) (accepted : ∀ d ∈ msg.descriptors, Accepted C d) :
    ∃ bytes, rpcEncode msg = .ok bytes ∧ rpcDecode C bytes = .ok msg := by
  cases msg with
  | ping nonce => exact ⟨_, rfl, (rpcDecode_framed .ping _).trans (decodeBody_nonce nonce).1⟩
  | pong nonce => exact ⟨_, rfl, (rpcDecode_framed .pong _).trans (decodeBody_nonce nonce).2⟩
  | store desc => exact rpcDecode_store (accepted desc (List.mem_singleton_self desc)).verified
  | find key wantValue =>
    refine ⟨_, rfl, (rpcDecode_framed .find _).trans ((decodeBody_find key _ []).trans ?_)⟩
    cases wantValue <;> rfl
  | found contacts value =>
    exact rpcDecode_found contacts value (Nat.lt_succ_of_le few) fun d member => (accepted d (Option.mem_toList.mpr member)).verified

namespace Transparent

open Nbf.Crypto.Transparent

def fullFound : RpcMsg := .found [⟨.zeros 20, loopback, 9001⟩, ⟨.replicate 20 7, loopback, 9002⟩] (some (descriptor 20 9101))

theorem descriptor_accepted (seed : UInt8) (port : UInt16) : Accepted crates (descriptor seed port) := by
  obtain ⟨bytes, encoded, -, read⟩ := Descriptor.fromSignedBytes_toBytes (ε := CryptoError)
    ((descriptor_signed seed port).verified lawful)
  exact ⟨bytes, _, encoded, read⟩

theorem fullFound_returns : ∃ bytes, rpcEncode fullFound = .ok bytes ∧ rpcDecode crates bytes = .ok fullFound := by
  refine rpcDecode_rpcEncode fullFound (by decide) fun d member => ?_
  obtain rfl : d = descriptor 20 9101 := List.mem_singleton.mp member
  exact descriptor_accepted 20 9101

end Transparent

/-! ## From bytes to a message and back -/

theorem RpcType.tryFrom_eq_ok {v : UInt8} {t : RpcType} (read : RpcType.tryFrom v = .ok t) : v = t.toU8 := by
  simp only [RpcType.tryFrom] at read
  repeat' split at read
  all_goals cases read
  all_goals assumption

theorem rpcDecode_eq_ok {data : List UInt8} {msg : RpcMsg} (read : rpcDecode C data = .ok msg) :
    ∃ t body, data = magic ++ t.toU8 :: body ∧ decodeBody C t body = .ok msg := by
  unfold rpcDecode at read
  split at read
  · cases read
  next long =>
  obtain ⟨head, headAt, read⟩ := Checked.bind_eq_ok.mp read
  obtain ⟨typeByte, typeAt, read⟩ := Checked.bind_eq_ok.mp read
  split at read
  · cases read
  next marked =>
  rw [ne_eq, not_not] at marked
  obtain ⟨t, typed, read⟩ := Checked.bind_eq_ok.mp read
  obtain ⟨body, bodyAt, read⟩ := Checked.bind_eq_ok.mp read
  refine ⟨t, body, ?_, read⟩
  have front : data.take 5 = magic ++ [t.toU8] := by
    rw [Checked.take_byteAt typeAt, ← RpcType.tryFrom_eq_ok typed, ← marked, Checked.slice_eq_ok headAt]
  rw [Checked.sliceFrom, if_pos (Nat.not_lt.mp long)] at bodyAt
  have whole := List.take_append_drop 5 data
  rw [front, Checked.ok.inj bodyAt, List.append_assoc, List.singleton_append] at whole
  exact whole.symm

theorem decodeContacts_eq_ok {body : List UInt8} {n o last : Nat} {contacts : List Contact}
    (read : decodeContacts body n o = .ok (contacts, last)) :
    contacts.length = n ∧ last = o + 26 * n ∧ body.take last = body.take o ++ contacts.flatMap Contact.bytes := by
  induction n generalizing o contacts with
  | zero =>
    cases read
    exact ⟨rfl, rfl, by simp⟩
  | succ n ih =>
    rw [decodeContacts] at read
    split at read
    · cases read
    obtain ⟨nodeId, nodeIdAt, read⟩ := Checked.bind_eq_ok.mp read
    obtain ⟨ip, ipAt, read⟩ := Checked.bind_eq_ok.mp read
    obtain ⟨port, portAt, read⟩ := Checked.bind_eq_ok.mp read
    obtain ⟨⟨later, stop⟩, rest, same⟩ := Checked.bind_eq_ok.mp read
    cases same
    obtain ⟨count, stopAt, taken⟩ := ih rest
    refine ⟨by rw [List.length_cons, count], by omega, ?_⟩
    rw [taken, show o + 26 = o + 24 + 2 from rfl, Checked.take_arrayAt portAt, show o + 24 = o + 20 + 4 from rfl,
      Checked.take_arrayAt ipAt, Checked.take_arrayAt nodeIdAt]
    simp [Contact.bytes, u16Le_u16OfLe]

def foundBody (contacts : List Contact) (tail : List UInt8) : List UInt8 :=
  u16Le (UInt16.ofNat contacts.length) ++ (contacts.flatMap Contact.bytes ++ tail)

theorem decodeBody_found_none {contacts : List Contact} (few : contacts.length ≤ 65535) (rest : List UInt8) :
    decodeBody C .found (foundBody contacts (0 :: rest)) = .ok (.found contacts none) := by
  obtain ⟨body, front, -, whole, decoded⟩ := decodeBody_found (C := C) (Nat.lt_succ_of_le few) 0 rest
  rw [foundBody, ← whole, decoded, if_pos rfl]

theorem decodeBody_found_some {contacts : List Contact} (few : contacts.length ≤ 65535) {flag : UInt8} (set : flag ≠ 0)
    {signed : List UInt8} {d : Descriptor} (read : Descriptor.fromSignedBytes C signed = .ok d) (rest : List UInt8) :
    decodeBody C .found (foundBody contacts (flag :: (signed ++ rest))) = .ok (.found contacts (some d)) := by
  obtain ⟨body, front, shape, whole, decoded⟩ := decodeBody_found (C := C) (Nat.lt_succ_of_le few) flag (signed ++ rest)
  have size : signed.length = Descriptor.descLen := Descriptor.fromSignedBytes_length read
  have enough : ¬ body.length < front.length + 1 + Descriptor.descLen := by
    rw [shape, List.length_append, List.length_cons, List.length_append, size]
    omega
  have valueAt : (Checked.slice body (front.length + 1) (front.length + 1 + Descriptor.descLen) : Checked DhtError _) =
      .ok signed := by
    rw [shape, List.append_cons]
    exact Checked.slice_append (by simp) (by simp [size])
  rw [foundBody, ← whole, decoded, if_neg set, if_neg enough, valueAt, Checked.ok_bind, read, Checked.mapErr_ok, Checked.ok_bind,
    Checked.pure_eq]

theorem decodeBody_found_eq_ok {body : List UInt8} {msg : RpcMsg} (read : decodeBody C .found body = .ok msg) :
    ∃ contacts flag rest, contacts.length ≤ 65535 ∧ body = foundBody contacts (flag :: rest) ∧
      ((flag = 0 ∧ msg = .found contacts none) ∨ (flag ≠ 0 ∧ ∃ signed tail d, rest = signed ++ tail ∧
        Descriptor.fromSignedBytes C signed = .ok d ∧ msg = .found contacts (some d))) := by
  simp only [decodeBody] at read
  split at read
  · cases read
  obtain ⟨count, countAt, read⟩ := Checked.bind_eq_ok.mp read
  obtain ⟨⟨contacts, o⟩, listed, read⟩ := Checked.bind_eq_ok.mp read
  obtain ⟨number, stop, taken⟩ := decodeContacts_eq_ok listed
  dsimp only at read
  split at read
  · cases read
  next more =>
  obtain ⟨flag, flagAt, read⟩ := Checked.bind_eq_ok.mp read
  have few : contacts.length ≤ 65535 := by
    have small := (u16OfLe count.bytes).toNat_lt
    omega
  have counted : u16Le (UInt16.ofNat contacts.length) = count.bytes := by
    rw [number, UInt16.ofNat_toNat, u16Le_u16OfLe]
  have start : body.take 2 = count.bytes := by
    have first := Checked.take_arrayAt countAt
    rwa [List.take_zero, List.nil_append] at first
  have front : body.take (o + 1) = count.bytes ++ contacts.flatMap Contact.bytes ++ [flag] := by
    rw [Checked.take_byteAt flagAt, taken, start]
  have whole : body = foundBody contacts (flag :: body.drop (o + 1)) := by
    have split := List.take_append_drop (o + 1) body
    rw [front, List.append_assoc, List.append_assoc, List.singleton_append] at split
    rw [foundBody, counted]
    exact split.symm
  refine ⟨contacts, flag, body.drop (o + 1), few, whole, ?_⟩
  split at read
  next zero =>
    cases read
    exact .inl ⟨zero, rfl⟩
  next set =>
  split at read
  · cases read
  obtain ⟨signed, signedAt, read⟩ := Checked.bind_eq_ok.mp read
  obtain ⟨d, checked, same⟩ := Checked.bind_eq_ok.mp read
  cases same
  refine .inr ⟨set, signed, (body.drop (o + 1)).drop Descriptor.descLen, d, ?_, Checked.mapErr_eq_ok.mp checked, rfl⟩
  unfold Checked.slice at signedAt
  split at signedAt
  · rw [← Checked.ok.inj signedAt, Nat.add_sub_cancel_left, List.take_append_drop]
  · cases signedAt

theorem decodeBody_find_eq_ok {body : List UInt8} {msg : RpcMsg} (read : decodeBody C .find body = .ok msg) :
    ∃ (key : NodeId) (flag : UInt8) (rest : List UInt8), body = key.bytes ++ flag :: rest := by
  simp only [decodeBody] at read
  split at read
  · cases read
  obtain ⟨key, keyAt, read⟩ := Checked.bind_eq_ok.mp read
  obtain ⟨flag, flagAt, -⟩ := Checked.bind_eq_ok.mp read
  refine ⟨key, flag, body.drop 21, ?_⟩
  have first := Checked.take_arrayAt keyAt
  rw [List.take_zero, List.nil_append, Nat.zero_add] at first
  have split := List.take_append_drop 21 body
  rw [show 21 = 20 + 1 from rfl, Checked.take_byteAt flagAt, first, List.append_assoc, List.singleton_append] at split
  exact split.symm

theorem flag_written {flag : UInt8} (small : flag ≤ 1) : (if flag != 0 then 1 else 0) = flag := by
  have cases : flag = 0 ∨ flag = 1 := by
    have bound : flag.toNat ≤ 1 := UInt8.le_iff_toNat_le.mp small
    rcases Nat.le_one_iff_eq_zero_or_eq_one.mp bound with zero | one
    · exact .inl (UInt8.toNat_inj.mp zero)
    · exact .inr (UInt8.toNat_inj.mp one)
  rcases cases with rfl | rfl <;> rfl

/-- The datagrams that are read as a message they do not encode: a FIND or a FOUND with a flag above 1, or with bytes
behind its last field. -/
inductive Lax (C : Crates) : List UInt8 → Prop where
  | find (key : NodeId) {flag : UInt8} {rest : List UInt8} : ¬ (flag ≤ 1 ∧ rest = []) →
      Lax C (magic ++ RpcType.find.toU8 :: (key.bytes ++ flag :: rest))
  | none {contacts : List Contact} {rest : List UInt8} : contacts.length ≤ 65535 → rest ≠ [] →
      Lax C (magic ++ RpcType.found.toU8 :: foundBody contacts (0 :: rest))
  | value {contacts : List Contact} {flag : UInt8} {signed rest : List UInt8} {d : Descriptor} : contacts.length ≤ 65535 →
      flag ≠ 0 → Descriptor.fromSignedBytes C signed = .ok d → ¬ (flag = 1 ∧ rest = []) →
      Lax C (magic ++ RpcType.found.toU8 :: foundBody contacts (flag :: (signed ++ rest)))

/-- A lax datagram is read, and what is read is encoded otherwise. -/
theorem Lax.misread {data : List UInt8} (lax : Lax C data) : ∃ msg, rpcDecode C data = .ok msg ∧ rpcEncode msg ≠ .ok data := by
  cases lax with
  | @find key flag rest wide =>
    refine ⟨_, (rpcDecode_framed .find _).trans (decodeBody_find key flag rest), fun same => wide ?_⟩
    have body := (List.cons.inj (List.append_cancel_left (Checked.ok.inj same))).2
    obtain ⟨flagSame, restSame⟩ := List.cons.inj (List.append_cancel_left body)
    refine ⟨?_, restSame.symm⟩
    rw [← flagSame]
    cases flag != 0 <;> decide
  | @none contacts rest few more =>
    refine ⟨_, (rpcDecode_framed .found _).trans (decodeBody_found_none few rest), fun same => more ?_⟩
    have body := (List.cons.inj (List.append_cancel_left (Checked.ok.inj same))).2
    exact (List.cons.inj (List.append_cancel_left (List.append_cancel_left body))).2.symm
  | @value contacts flag signed rest d few set read wide =>
    refine ⟨_, (rpcDecode_framed .found _).trans (decodeBody_found_some few set read rest), fun same => wide ?_⟩
    obtain ⟨encoded, -⟩ := Descriptor.fromSignedBytes_eq_ok (ε := DhtError) read
    simp only [rpcEncode, rpcBody, encoded, Checked.ok_bind, Checked.pure_eq] at same
    have body := (List.cons.inj (List.append_cancel_left (Checked.ok.inj same))).2
    obtain ⟨flagSame, restSame⟩ := List.cons.inj (List.append_cancel_left (List.append_cancel_left body))
    exact ⟨flagSame.symm, List.self_eq_append_right.mp restSame⟩

/-- The decoder reads a datagram as nothing but the message it encodes, exactly if the datagram is not a lax one. -/
theorem rpcDecode_exact_iff (data : List UInt8) :
    (∀ msg, rpcDecode C data = .ok msg → rpcEncode msg = .ok data) ↔ ¬ Lax C data := by
  constructor
  · intro exact lax
    obtain ⟨msg, read, other⟩ := lax.misread
    exact other (exact msg read)
  · intro strict msg decoded
    obtain ⟨t, body, rfl, read⟩ := rpcDecode_eq_ok decoded
    clear decoded
    cases t with
    | ping | pong =>
      simp only [decodeBody] at read
      split at read
      · cases read
      next size =>
      rw [ne_eq, not_not] at size
      obtain ⟨nonce, nonceAt, same⟩ := Checked.bind_eq_ok.mp read
      cases same
      have whole : body = nonce.bytes := by
        rw [Checked.bytes_of_arrayAt nonceAt, List.drop_zero, List.take_of_length_le (Nat.le_of_eq size)]
      rw [whole, rpcEncode, rpcBody, u64Le_u64OfLe]
      rfl
    | store =>
      obtain ⟨d, checked, same⟩ := Checked.bind_eq_ok.mp read
      cases same
      obtain ⟨encoded, -⟩ := Descriptor.fromSignedBytes_eq_ok (ε := DhtError) (Checked.mapErr_eq_ok.mp checked)
      simp only [rpcEncode, rpcBody, encoded, Checked.ok_bind, Checked.pure_eq]
    | find =>
      obtain ⟨key, flag, rest, rfl⟩ := decodeBody_find_eq_ok read
      rw [decodeBody_find] at read
      cases read
      by_cases narrow : flag ≤ 1 ∧ rest = []
      · obtain ⟨flagSmall, rfl⟩ := narrow
        rw [rpcEncode, rpcBody, Checked.ok_bind, flag_written flagSmall]
        rfl
      · exact absurd (.find key narrow) strict
    | found =>
      obtain ⟨contacts, flag, rest, few, rfl, ⟨rfl, rfl⟩ | ⟨set, signed, tail, d, rfl, checked, rfl⟩⟩ := decodeBody_found_eq_ok read
      · by_cases more : rest = []
        · rw [more]
          rfl
        · exact absurd (.none few more) strict
      · by_cases narrow : flag = 1 ∧ tail = []
        · obtain ⟨rfl, rfl⟩ := narrow
          obtain ⟨encoded, -⟩ := Descriptor.fromSignedBytes_eq_ok (ε := DhtError) checked
          simp only [rpcEncode, rpcBody, encoded, Checked.ok_bind, Checked.pure_eq, List.append_nil, foundBody]
          rfl
        · exact absurd (.value few set checked narrow) strict

namespace Transparent

open Nbf.Crypto.Transparent

/-- A FIND whose flag is 2 is read as one whose flag is 1; so is one with a byte behind it. -/
theorem find_lax : ¬ (∀ msg, rpcDecode crates (magic ++ 4 :: ((Octets.zeros 20).bytes ++ [2])) = .ok msg →
      rpcEncode msg = .ok (magic ++ 4 :: ((Octets.zeros 20).bytes ++ [2]))) ∧
    ¬ (∀ msg, rpcDecode crates (magic ++ 4 :: ((Octets.zeros 20).bytes ++ [1, 0])) = .ok msg →
      rpcEncode msg = .ok (magic ++ 4 :: ((Octets.zeros 20).bytes ++ [1, 0]))) := by
  constructor
  · intro exact
    have lax : Lax crates (magic ++ 4 :: ((Octets.zeros 20).bytes ++ [2])) := .find (.zeros 20) (by decide)
    obtain ⟨msg, read, other⟩ := lax.misread
    exact other (exact msg read)
  · intro exact
    have lax : Lax crates (magic ++ 4 :: ((Octets.zeros 20).bytes ++ [1, 0])) := .find (.zeros 20) (by simp)
    obtain ⟨msg, read, other⟩ := lax.misread
    exact other (exact msg read)

end Transparent
end Nbf.Dht

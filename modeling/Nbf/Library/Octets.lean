import Mathlib.Algebra.Group.Nat.Defs
import Mathlib.Data.List.Basic
import Nbf.Library.Checked

/-! Byte arrays of a fixed length, little-endian words, and the partial
slicing operations a parser performs on a byte string. -/

set_option autoImplicit false

namespace Nbf.Library

/-- An array of exactly `n` bytes, `[u8; n]`. -/
@[ext] structure Octets (n : Nat) where
  bytes : List UInt8
  size : bytes.length = n
  deriving DecidableEq, Repr

namespace Octets

variable {n : Nat}

@[simp] theorem length_bytes (a : Octets n) : a.bytes.length = n := a.size

def replicate (n : Nat) (byte : UInt8) : Octets n := ⟨List.replicate n byte, by simp⟩

def zeros (n : Nat) : Octets n := replicate n 0

instance : Inhabited (Octets n) := ⟨zeros n⟩

def take {m : Nat} (n : Nat) (a : Octets m) (le : n ≤ m) : Octets n :=
  ⟨a.bytes.take n, by simp [le]⟩

def drop {m : Nat} (k : Nat) (a : Octets m) : Octets (m - k) :=
  ⟨a.bytes.drop k, by simp⟩

end Octets

/-! Little-endian words. -/

/-- The `k` low bytes of `n`, least significant first. -/
def leBytes : Nat → Nat → List UInt8
  | 0, _ => []
  | k + 1, n => UInt8.ofNat n :: leBytes k (n / 256)

def leValue : List UInt8 → Nat
  | [] => 0
  | byte :: rest => byte.toNat + 256 * leValue rest

@[simp] theorem length_leBytes (k n : Nat) : (leBytes k n).length = k := by
  induction k generalizing n with
  | zero => rfl
  | succ k ih => simp [leBytes, ih]

theorem leValue_leBytes (k n : Nat) : leValue (leBytes k n) = n % 256 ^ k := by
  induction k generalizing n with
  | zero => simp [leBytes, leValue, Nat.mod_one]
  | succ k ih =>
    have low : (UInt8.ofNat n).toNat = n % 256 := by simp
    rw [leBytes, leValue, ih, low, Nat.pow_succ, Nat.mul_comm (256 ^ k) 256, Nat.mod_mul]

def u16Le (v : UInt16) : List UInt8 := leBytes 2 v.toNat
def u32Le (v : UInt32) : List UInt8 := leBytes 4 v.toNat
def u64Le (v : UInt64) : List UInt8 := leBytes 8 v.toNat

def u16OfLe (bytes : List UInt8) : UInt16 := UInt16.ofNat (leValue bytes)
def u32OfLe (bytes : List UInt8) : UInt32 := UInt32.ofNat (leValue bytes)
def u64OfLe (bytes : List UInt8) : UInt64 := UInt64.ofNat (leValue bytes)

@[simp] theorem length_u16Le (v : UInt16) : (u16Le v).length = 2 := length_leBytes _ _
@[simp] theorem length_u32Le (v : UInt32) : (u32Le v).length = 4 := length_leBytes _ _
@[simp] theorem length_u64Le (v : UInt64) : (u64Le v).length = 8 := length_leBytes _ _

@[simp] theorem u16OfLe_u16Le (v : UInt16) : u16OfLe (u16Le v) = v := by
  have bound := v.toNat_lt
  rw [u16OfLe, u16Le, leValue_leBytes, Nat.mod_eq_of_lt (by omega), UInt16.ofNat_toNat]

@[simp] theorem u32OfLe_u32Le (v : UInt32) : u32OfLe (u32Le v) = v := by
  have bound := v.toNat_lt
  rw [u32OfLe, u32Le, leValue_leBytes, Nat.mod_eq_of_lt (by omega), UInt32.ofNat_toNat]

@[simp] theorem u64OfLe_u64Le (v : UInt64) : u64OfLe (u64Le v) = v := by
  have bound := v.toNat_lt
  rw [u64OfLe, u64Le, leValue_leBytes, Nat.mod_eq_of_lt (by omega), UInt64.ofNat_toNat]

theorem u16Le_inj {v w : UInt16} (same : u16Le v = u16Le w) : v = w := by
  rw [← u16OfLe_u16Le v, same, u16OfLe_u16Le]

theorem u64Le_inj {v w : UInt64} (same : u64Le v = u64Le w) : v = w := by
  rw [← u64OfLe_u64Le v, same, u64OfLe_u64Le]

theorem leValue_lt (bytes : List UInt8) : leValue bytes < 256 ^ bytes.length := by
  induction bytes with
  | nil => decide
  | cons byte bytes ih =>
    have bound := byte.toNat_lt
    rw [leValue, List.length_cons, Nat.pow_succ]
    omega

theorem leBytes_leValue (bytes : List UInt8) : leBytes bytes.length (leValue bytes) = bytes := by
  induction bytes with
  | nil => rfl
  | cons byte bytes ih =>
    have bound := byte.toNat_lt
    have low : UInt8.ofNat (byte.toNat + 256 * leValue bytes) = byte := by
      apply UInt8.toNat_inj.mp
      rw [UInt8.toNat_ofNat']
      omega
    have high : (byte.toNat + 256 * leValue bytes) / 256 = leValue bytes := by omega
    rw [List.length_cons, leValue, leBytes, low, high, ih]

theorem u16Le_u16OfLe (a : Octets 2) : u16Le (u16OfLe a.bytes) = a.bytes := by
  have bound := leValue_lt a.bytes
  have back := leBytes_leValue a.bytes
  rw [a.size] at bound back
  rw [u16Le, u16OfLe, UInt16.toNat_ofNat_of_lt' bound, back]

theorem u64Le_u64OfLe (a : Octets 8) : u64Le (u64OfLe a.bytes) = a.bytes := by
  have bound := leValue_lt a.bytes
  have back := leBytes_leValue a.bytes
  rw [a.size] at bound back
  rw [u64Le, u64OfLe, UInt64.toNat_ofNat_of_lt' bound, back]

/-! Slicing a byte string. -/

namespace Checked

variable {ε : Type}

/-- `bytes[o]`. -/
def byteAt (bytes : List UInt8) (o : Nat) : Checked ε UInt8 :=
  if h : o < bytes.length then ok bytes[o] else panic

/-- `bytes[o..]`. -/
def sliceFrom (bytes : List UInt8) (o : Nat) : Checked ε (List UInt8) :=
  if o ≤ bytes.length then ok (bytes.drop o) else panic

/-- `bytes[a..b]`. -/
def slice (bytes : List UInt8) (a b : Nat) : Checked ε (List UInt8) :=
  if a ≤ b ∧ b ≤ bytes.length then ok ((bytes.drop a).take (b - a)) else panic

/-- `bytes[o..o + n].try_into().unwrap()`. -/
def arrayAt (n : Nat) (bytes : List UInt8) (o : Nat) : Checked ε (Octets n) :=
  if h : o + n ≤ bytes.length then ok ⟨(bytes.drop o).take n, by simp; omega⟩ else panic

theorem byteAt_append {front rest : List UInt8} {byte : UInt8} {o : Nat} (start : o = front.length) :
    (byteAt (front ++ byte :: rest) o : Checked ε _) = ok byte := by
  subst start
  simp [byteAt]

theorem sliceFrom_append {front rest : List UInt8} {o : Nat} (size : o = front.length) :
    (sliceFrom (front ++ rest) o : Checked ε _) = ok rest := by
  subst size
  simp [sliceFrom]

theorem slice_append {front mid rest : List UInt8} {a b : Nat}
    (start : a = front.length) (stop : b = front.length + mid.length) :
    (slice (front ++ (mid ++ rest)) a b : Checked ε _) = ok mid := by
  subst start stop
  simp [slice]

theorem slice_self {bytes : List UInt8} {b : Nat} (stop : b = bytes.length) :
    (slice bytes 0 b : Checked ε _) = ok bytes := by
  subst stop
  simp [slice]

theorem slice_prefix {bytes : List UInt8} {b : Nat} (fits : b ≤ bytes.length) :
    (slice bytes 0 b : Checked ε _) = ok (bytes.take b) := by
  rw [slice, if_pos ⟨Nat.zero_le _, fits⟩, List.drop_zero, Nat.sub_zero]

theorem arrayAt_ok {n o : Nat} {bytes : List UInt8} (fits : o + n ≤ bytes.length) :
    ∃ a, (arrayAt n bytes o : Checked ε _) = .ok a := by
  rw [arrayAt, dif_pos fits]
  exact ⟨_, rfl⟩

theorem arrayAt_returns {n o : Nat} {bytes : List UInt8} (fits : o + n ≤ bytes.length) :
    (arrayAt n bytes o : Checked ε _).Returns := by
  obtain ⟨a, read⟩ := arrayAt_ok (ε := ε) fits
  rw [read]
  exact returns_ok a

theorem byteAt_returns {o : Nat} {bytes : List UInt8} (fits : o < bytes.length) : (byteAt bytes o : Checked ε _).Returns := by
  rw [byteAt, dif_pos fits]
  exact returns_ok _

theorem sliceFrom_returns {o : Nat} {bytes : List UInt8} (fits : o ≤ bytes.length) :
    (sliceFrom bytes o : Checked ε _).Returns := by
  rw [sliceFrom, if_pos fits]
  exact returns_ok _

theorem slice_returns {a b : Nat} {bytes : List UInt8} (ordered : a ≤ b) (fits : b ≤ bytes.length) :
    (slice bytes a b : Checked ε _).Returns := by
  rw [slice, if_pos ⟨ordered, fits⟩]
  exact returns_ok _

theorem length_of_sliceFrom {o : Nat} {bytes rest : List UInt8} (read : (sliceFrom bytes o : Checked ε _) = .ok rest) :
    rest.length = bytes.length - o := by
  unfold sliceFrom at read
  split at read
  · rw [← ok.inj read, List.length_drop]
  · cases read

theorem take_arrayAt {n o : Nat} {bytes : List UInt8} {a : Octets n} (read : (arrayAt n bytes o : Checked ε _) = .ok a) :
    bytes.take (o + n) = bytes.take o ++ a.bytes := by
  unfold arrayAt at read
  split at read
  · rw [← ok.inj read, List.take_add]
  · cases read

theorem take_byteAt {o : Nat} {bytes : List UInt8} {byte : UInt8} (read : (byteAt bytes o : Checked ε _) = .ok byte) :
    bytes.take (o + 1) = bytes.take o ++ [byte] := by
  unfold byteAt at read
  split at read
  next fits => rw [← ok.inj read, List.take_succ_eq_append_getElem fits]
  · cases read

theorem getElem?_of_byteAt {o : Nat} {bytes : List UInt8} {byte : UInt8}
    (read : (byteAt bytes o : Checked ε _) = .ok byte) : bytes[o]? = some byte := by
  unfold byteAt at read
  split at read
  next fits => rw [← ok.inj read, List.getElem?_eq_getElem fits]
  · cases read

theorem bytes_of_arrayAt {n o : Nat} {bytes : List UInt8} {a : Octets n} (read : (arrayAt n bytes o : Checked ε _) = .ok a) :
    a.bytes = (bytes.drop o).take n := by
  unfold arrayAt at read
  split at read
  · rw [← ok.inj read]
  · cases read

theorem slice_eq_ok {bytes part : List UInt8} {b : Nat} (read : (slice bytes 0 b : Checked ε _) = .ok part) :
    part = bytes.take b := by
  unfold slice at read
  split at read
  · exact (ok.inj read).symm
  · cases read

theorem arrayAt_append {n : Nat} {front rest : List UInt8} {o : Nat} (a : Octets n)
    (start : o = front.length) :
    (arrayAt n (front ++ (a.bytes ++ rest)) o : Checked ε _) = ok a := by
  subst start
  have fits : front.length + n ≤ (front ++ (a.bytes ++ rest)).length := by
    simp only [List.length_append, a.size]; omega
  have read : ((front ++ (a.bytes ++ rest)).drop front.length).take n = a.bytes := by
    rw [List.drop_left]
    exact List.take_left' a.size
  rw [arrayAt, dif_pos fits]
  exact congrArg ok (Octets.ext read)

theorem arrayAt_skip {n o : Nat} {front rest : List UInt8} (behind : front.length ≤ o) :
    (arrayAt n (front ++ rest) o : Checked ε _) = arrayAt n rest (o - front.length) := by
  have bound : o + n ≤ (front ++ rest).length ↔ o - front.length + n ≤ rest.length := by
    rw [List.length_append]
    omega
  have read : (front ++ rest).drop o = rest.drop (o - front.length) := by
    rw [List.drop_append, List.drop_of_length_le behind, List.nil_append]
  unfold arrayAt
  by_cases fits : o - front.length + n ≤ rest.length
  · rw [dif_pos fits, dif_pos (bound.mpr fits)]
    exact congrArg ok (Octets.ext (congrArg (List.take n) read))
  · rw [dif_neg fits, dif_neg (mt bound.mp fits)]

theorem arrayAt_self {n : Nat} (a : Octets n) : (arrayAt n a.bytes 0 : Checked ε _) = ok a := by
  have fits : 0 + n ≤ a.bytes.length := by simp
  rw [arrayAt, dif_pos fits]
  exact congrArg ok (Octets.ext (List.take_of_length_le (Nat.le_of_eq a.size)))

theorem arrayAt_head {n : Nat} {rest : List UInt8} (a : Octets n) :
    (arrayAt n (a.bytes ++ rest) 0 : Checked ε _) = ok a := by
  have first : (arrayAt n ([] ++ (a.bytes ++ rest)) 0 : Checked ε _) = ok a := arrayAt_append a rfl
  exact first

end Checked

/-! Cutting a byte string into chunks. -/

def takeChunks (k : Nat) : Nat → List UInt8 → List (Octets k)
  | 0, _ => []
  | count + 1, bytes =>
    if h : k ≤ bytes.length then ⟨bytes.take k, by simp [h]⟩ :: takeChunks k count (bytes.drop k) else []

/-- `chunks_exact(k)`: the complete chunks; a shorter remainder is not visited. -/
def chunksExact (k : Nat) (bytes : List UInt8) : List (Octets k) := takeChunks k (bytes.length / k) bytes

theorem takeChunks_flatMap {k : Nat} (chunks : List (Octets k)) :
    takeChunks k chunks.length (chunks.flatMap Octets.bytes) = chunks := by
  induction chunks with
  | nil => rfl
  | cons chunk rest ih =>
    have fits : k ≤ (chunk.bytes ++ rest.flatMap Octets.bytes).length := by simp
    rw [List.length_cons, List.flatMap_cons, takeChunks, dif_pos fits]
    congr 1
    · exact Octets.ext (List.take_left' chunk.size)
    · rw [List.drop_left' chunk.size, ih]

@[simp] theorem length_flatMap_bytes {k : Nat} (chunks : List (Octets k)) :
    (chunks.flatMap Octets.bytes).length = chunks.length * k := by
  induction chunks with
  | nil => simp
  | cons chunk rest ih => simp [ih, Nat.add_mul, Nat.add_comm]

theorem length_takeChunks {k count : Nat} {bytes : List UInt8} (enough : count * k ≤ bytes.length) :
    (takeChunks k count bytes).length = count := by
  induction count generalizing bytes with
  | zero => rfl
  | succ count ih =>
    rw [Nat.succ_mul] at enough
    have rest : count * k ≤ (bytes.drop k).length := by
      rw [List.length_drop]
      omega
    rw [takeChunks, dif_pos (by omega), List.length_cons, ih rest]

theorem length_chunksExact (k : Nat) (bytes : List UInt8) : (chunksExact k bytes).length = bytes.length / k :=
  length_takeChunks (Nat.div_mul_le_self _ _)

theorem chunksExact_flatMap {k : Nat} (positive : 0 < k) (chunks : List (Octets k)) :
    chunksExact k (chunks.flatMap Octets.bytes) = chunks := by
  rw [chunksExact, length_flatMap_bytes, Nat.mul_div_cancel _ positive, takeChunks_flatMap]

end Nbf.Library

import Mathlib

/-! Integers in memory: the octets of a fixed-width integer in either byte order,
reading them back, and the exchange of the two orders. Everything is stated over
octet lists, so that a field of a wire format is read and written by the same
functions whatever the host. -/

namespace ByteOrder

inductive Endian where
  | little
  | big
  deriving DecidableEq, Repr

/-- Value of octets stored least significant first. -/
def leNat : List UInt8 → ℕ
  | [] => 0
  | b :: bs => b.toNat + 256 * leNat bs

/-- The `k` low octets of a number, least significant first. -/
def leBytes : ℕ → ℕ → List UInt8
  | 0, _ => []
  | k + 1, n => UInt8.ofNat n :: leBytes k (n / 256)

@[simp] theorem leBytes_length (k n : ℕ) : (leBytes k n).length = k := by
  induction k generalizing n with
  | zero => rfl
  | succ k ih => simp [leBytes, ih]

theorem leNat_leBytes (k n : ℕ) : leNat (leBytes k n) = n % 256 ^ k := by
  induction k generalizing n with
  | zero => simp [leBytes, leNat, Nat.mod_one]
  | succ k ih =>
    rw [leBytes, leNat, ih, Nat.pow_succ, Nat.mul_comm _ 256, Nat.mod_mul]
    simp

theorem leNat_lt (bs : List UInt8) : leNat bs < 256 ^ bs.length := by
  induction bs with
  | nil => simp [leNat]
  | cons b bs ih =>
    have hb := b.toNat_lt
    simp only [leNat, List.length_cons, Nat.pow_succ]
    omega

theorem leBytes_leNat (bs : List UInt8) : leBytes bs.length (leNat bs) = bs := by
  induction bs with
  | nil => rfl
  | cons b bs ih =>
    have hb : b.toNat < 256 := b.toNat_lt
    have hd : (b.toNat + 256 * leNat bs) / 256 = leNat bs := by omega
    have hm : UInt8.ofNat (b.toNat + 256 * leNat bs) = b := by
      apply UInt8.toNat_inj.1
      rw [UInt8.toNat_ofNat']
      omega
    rw [List.length_cons, leNat, leBytes, hd, hm, ih]

/-- The value a host of the given byte order sees in a run of octets. -/
def load : Endian → List UInt8 → ℕ
  | .little, bs => leNat bs
  | .big, bs => leNat bs.reverse

/-- The octets a host of the given byte order stores for a `k`-octet integer. -/
def store : Endian → ℕ → ℕ → List UInt8
  | .little, k, n => leBytes k n
  | .big, k, n => (leBytes k n).reverse

@[simp] theorem store_length (e : Endian) (k n : ℕ) : (store e k n).length = k := by
  cases e <;> simp [store]

theorem load_store (e : Endian) (k n : ℕ) : load e (store e k n) = n % 256 ^ k := by
  cases e <;> simp [load, store, leNat_leBytes]

theorem store_load (e : Endian) (bs : List UInt8) : store e bs.length (load e bs) = bs := by
  cases e with
  | little => exact leBytes_leNat bs
  | big =>
    have h := leBytes_leNat bs.reverse
    rw [List.length_reverse] at h
    simp [load, store, h]

theorem load_lt (e : Endian) (bs : List UInt8) : load e bs < 256 ^ bs.length := by
  cases e with
  | little => exact leNat_lt bs
  | big => simpa [load] using leNat_lt bs.reverse

/-- Two runs of octets of one length are equal as soon as a host reads the same value. -/
theorem load_inj {e : Endian} {as bs : List UInt8} (hl : as.length = bs.length)
    (h : load e as = load e bs) : as = bs := by
  rw [← store_load e as, ← store_load e bs, hl, h]

theorem leNat_eq_zero (bs : List UInt8) : leNat bs = 0 ↔ ∀ b ∈ bs, b = 0 := by
  induction bs with
  | nil => simp [leNat]
  | cons b bs ih =>
    have hb : b.toNat = 0 ↔ b = 0 := by rw [← UInt8.toNat_inj]; rfl
    simp [leNat, ih, hb]

theorem load_eq_zero (e : Endian) (bs : List UInt8) : load e bs = 0 ↔ ∀ b ∈ bs, b = 0 := by
  cases e <;> simp [load, leNat_eq_zero]

/-- The value of the same octets in the opposite order. -/
def swap (k n : ℕ) : ℕ := leNat (leBytes k n).reverse

theorem swap_lt (k n : ℕ) : swap k n < 256 ^ k := by
  simpa [swap] using leNat_lt (leBytes k n).reverse

theorem leBytes_swap (k n : ℕ) : leBytes k (swap k n) = (leBytes k n).reverse := by
  have h := leBytes_leNat (leBytes k n).reverse
  rwa [List.length_reverse, leBytes_length] at h

theorem swap_swap (k n : ℕ) : swap k (swap k n) = n % 256 ^ k := by
  rw [swap, leBytes_swap, List.reverse_reverse, leNat_leBytes]

def load16 (e : Endian) (bs : List UInt8) : UInt16 := UInt16.ofNat (load e bs)
def load32 (e : Endian) (bs : List UInt8) : UInt32 := UInt32.ofNat (load e bs)
def store16 (e : Endian) (x : UInt16) : List UInt8 := store e 2 x.toNat
def store32 (e : Endian) (x : UInt32) : List UInt8 := store e 4 x.toNat
def swap16 (x : UInt16) : UInt16 := UInt16.ofNat (swap 2 x.toNat)
def swap32 (x : UInt32) : UInt32 := UInt32.ofNat (swap 4 x.toNat)

@[simp] theorem store16_length (e : Endian) (x : UInt16) : (store16 e x).length = 2 := by
  simp [store16]

@[simp] theorem store32_length (e : Endian) (x : UInt32) : (store32 e x).length = 4 := by
  simp [store32]

@[simp] theorem load16_store16 (e : Endian) (x : UInt16) : load16 e (store16 e x) = x := by
  apply UInt16.toNat_inj.1
  have hx := x.toNat_lt
  rw [load16, store16, load_store, UInt16.toNat_ofNat']
  omega

@[simp] theorem load32_store32 (e : Endian) (x : UInt32) : load32 e (store32 e x) = x := by
  apply UInt32.toNat_inj.1
  have hx := x.toNat_lt
  rw [load32, store32, load_store, UInt32.toNat_ofNat']
  omega

theorem toNat_load32 {e : Endian} {bs : List UInt8} (h : bs.length = 4) :
    (load32 e bs).toNat = load e bs := by
  have hlt := load_lt e bs
  rw [h] at hlt
  rw [load32, UInt32.toNat_ofNat', Nat.mod_eq_of_lt]
  simpa using hlt

theorem toNat_load16 {e : Endian} {bs : List UInt8} (h : bs.length = 2) :
    (load16 e bs).toNat = load e bs := by
  have hlt := load_lt e bs
  rw [h] at hlt
  rw [load16, UInt16.toNat_ofNat', Nat.mod_eq_of_lt]
  simpa using hlt

theorem store32_load32 (e : Endian) {bs : List UInt8} (h : bs.length = 4) : store32 e (load32 e bs) = bs := by
  rw [store32, toNat_load32 h, ← h, store_load]

theorem load32_inj {e : Endian} {as bs : List UInt8} (ha : as.length = 4) (hb : bs.length = 4)
    (h : load32 e as = load32 e bs) : as = bs := by
  apply load_inj (e := e) (ha.trans hb.symm)
  rw [← toNat_load32 ha, ← toNat_load32 hb, h]

theorem toNat_swap16 (x : UInt16) : (swap16 x).toNat = swap 2 x.toNat := by
  rw [swap16, UInt16.toNat_ofNat', Nat.mod_eq_of_lt (by simpa using swap_lt 2 x.toNat)]

theorem toNat_swap32 (x : UInt32) : (swap32 x).toNat = swap 4 x.toNat := by
  rw [swap32, UInt32.toNat_ofNat', Nat.mod_eq_of_lt (by simpa using swap_lt 4 x.toNat)]

/-- Exchanging what one kind of host has read is reading as the other kind does. -/
theorem swap16_load16 {bs : List UInt8} (h : bs.length = 2) :
    swap16 (load16 .little bs) = load16 .big bs := by
  apply UInt16.toNat_inj.1
  rw [toNat_swap16, toNat_load16 h, toNat_load16 h, swap, load, load, ← h, leBytes_leNat]

/-- Storing the exchanged value is storing the value for the other kind of host. -/
theorem store16_swap16 (x : UInt16) : store16 .little (swap16 x) = store16 .big x := by
  rw [store16, store16, toNat_swap16]
  exact leBytes_swap 2 x.toNat

theorem store32_swap32 (x : UInt32) : store32 .little (swap32 x) = store32 .big x := by
  rw [store32, store32, toNat_swap32]
  exact leBytes_swap 4 x.toNat

@[simp] theorem swap32_swap32 (x : UInt32) : swap32 (swap32 x) = x := by
  have hx := x.toNat_lt
  apply UInt32.toNat_inj.1
  rw [toNat_swap32, toNat_swap32, swap_swap]
  omega

end ByteOrder

import Mathlib
import ACENetwork.Library.ByteOrder

/-! What the protocols use of ACE: the macros for the byte order, and the buffers that messages
are written to. -/

namespace ACENetwork

open ByteOrder

/-- Octet arrays of fixed size. -/
abbrev Octets (n : ℕ) := { bytes : List UInt8 // bytes.length = n }

def Octets.zeros (n : ℕ) : Octets n := ⟨List.replicate n 0, List.length_replicate⟩

def swapLong (e : Endian) (x : UInt32) : UInt32 :=
  match e with
  | .little => swap32 x
  | .big => x

def swapWord (e : Endian) (x : UInt16) : UInt16 :=
  match e with
  | .little => swap16 x
  | .big => x

theorem store32_swapLong (e : Endian) (x : UInt32) : store32 e (swapLong e x) = store32 .big x := by
  cases e with
  | little => exact store32_swap32 x
  | big => rfl

theorem store16_swapWord (e : Endian) (x : UInt16) : store16 e (swapWord e x) = store16 .big x := by
  cases e with
  | little => exact store16_swap16 x
  | big => rfl

theorem swapWord_load16 (e : Endian) {bs : List UInt8} (h : bs.length = 2) :
    swapWord e (load16 e bs) = load16 .big bs := by
  cases e with
  | little => exact swap16_load16 h
  | big => rfl

/-- `ACE_Message_Block`: a fixed capacity and the octets between the read and the write
position, with the read position at the start. -/
structure MessageBlock where
  capacity : ℕ
  content : List UInt8
  fits : content.length ≤ capacity

namespace MessageBlock

def allocate (capacity : ℕ) : MessageBlock := ⟨capacity, [], Nat.zero_le _⟩

def length (m : MessageBlock) : ℕ := m.content.length

def space (m : MessageBlock) : ℕ := m.capacity - m.content.length

/-- `ACE_Message_Block::copy`, which fails when there is no room. -/
def copy (m : MessageBlock) (bytes : List UInt8) : Option MessageBlock :=
  if h : bytes.length ≤ m.space then
    some ⟨m.capacity, m.content ++ bytes, by
      have := m.fits
      simp only [space] at h
      simp only [List.length_append]
      omega⟩
  else none

theorem copy_eq_some (m : MessageBlock) (bytes : List UInt8) (h : bytes.length ≤ m.space) :
    ∃ m', m.copy bytes = some m' ∧ m'.capacity = m.capacity ∧ m'.content = m.content ++ bytes := by
  refine ⟨_, dif_pos h, rfl, rfl⟩

/-- `f` appends `bytes` to every message that has room for them and for `spare` more octets. -/
def Writes {E : Type} (spare : ℕ) (f : MessageBlock → Except E MessageBlock) (bytes : List UInt8) : Prop :=
  ∀ m, m.content.length + bytes.length + spare ≤ m.capacity →
    ∃ m', f m = .ok m' ∧ m'.capacity = m.capacity ∧ m'.content = m.content ++ bytes

theorem writes_pure {E : Type} {f : MessageBlock → Except E MessageBlock} (hf : ∀ m, f m = .ok m) :
    Writes 0 f [] := fun m _ => ⟨m, hf m, rfl, (List.append_nil _).symm⟩

theorem writes_copy {E : Type} {f : MessageBlock → Except E MessageBlock} {bytes : List UInt8}
    (hf : ∀ m m', m.copy bytes = some m' → f m = .ok m') : Writes 0 f bytes := by
  intro m hroom
  obtain ⟨m', hcopy, hm'⟩ := copy_eq_some m bytes (by unfold space; omega)
  exact ⟨m', hf m m' hcopy, hm'⟩

/-- What is written first needs no more room to spare than what follows it takes. -/
theorem Writes.bind {E : Type} {f g : MessageBlock → Except E MessageBlock} {a b : List UInt8}
    {k l : ℕ} (hf : Writes k f a) (hg : Writes l g b) (hk : k ≤ b.length + l) :
    Writes l (fun m => f m >>= g) (a ++ b) := by
  intro m hroom
  rw [List.length_append] at hroom
  obtain ⟨m₁, hf₁, hcap₁, hcontent₁⟩ := hf m (by omega)
  obtain ⟨m₂, hg₂, hcap₂, hcontent₂⟩ := hg m₁ (by
    rw [hcap₁, hcontent₁, List.length_append]
    omega)
  refine ⟨m₂, ?_, hcap₂.trans hcap₁, ?_⟩
  · simp only [hf₁, Bind.bind, Except.bind, hg₂]
  · rw [hcontent₂, hcontent₁, List.append_assoc]

end MessageBlock

/-- `memcpy` into a buffer of known size; a copy that does not fit has no result. -/
def memcpy (dst : List UInt8) (offset : ℕ) (src : List UInt8) : Option (List UInt8) :=
  if offset + src.length ≤ dst.length then
    some (dst.take offset ++ src ++ dst.drop (offset + src.length))
  else none

/-- Writing behind what was written before, into a buffer that was zero. -/
theorem memcpy_append {pre src : List UInt8} {n : ℕ} (h : pre.length + src.length ≤ n) :
    memcpy (pre ++ List.replicate (n - pre.length) 0) pre.length src =
      some ((pre ++ src) ++ List.replicate (n - (pre ++ src).length) 0) := by
  have hlen : pre.length + src.length ≤ (pre ++ List.replicate (n - pre.length) (0 : UInt8)).length := by
    simp only [List.length_append, List.length_replicate]
    omega
  rw [memcpy, if_pos hlen, List.take_left, List.drop_append]
  simp [Nat.sub_sub]

/-- The string in front of the first NUL. -/
def cString (bytes : List UInt8) : List UInt8 := bytes.takeWhile (· ≠ 0)

theorem cString_padded {s : List UInt8} (h : 0 ∉ s) (n : ℕ) :
    cString (s ++ List.replicate n 0) = s := by
  rw [cString, List.takeWhile_append_of_pos (by
    intro a ha
    exact decide_eq_true fun h0 => h (h0 ▸ ha))]
  cases n <;> simp [List.replicate_succ]

theorem cString_eq_self {s : List UInt8} : cString s = s ↔ 0 ∉ s := by
  rw [cString, List.takeWhile_eq_self_iff]
  constructor
  · intro h hzero
    exact absurd (h 0 hzero) (by decide)
  · intro h a ha
    apply decide_eq_true
    rintro rfl
    exact h ha

end ACENetwork

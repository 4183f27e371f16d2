import Mqtts.Lib.Checked

/-!
# Bytes at a position of a buffer

What a program reads at a position is what has been written there: `Placed.read`, `Placed.read16`,
`Placed.read32` and `Placed.assign` for the reads of `Checked`.
-/

namespace Checked

/-- The bytes stand in the buffer from `pos` on. -/
def Placed (buf : List UInt8) (pos : Nat) (bytes : List UInt8) : Prop :=
  ∃ before after, buf = before ++ bytes ++ after ∧ before.length = pos

variable {ε : Type} {buf : List UInt8} {pos : Nat} {bytes rest : List UInt8}

theorem placed_zero (bytes rest : List UInt8) : Placed (bytes ++ rest) 0 bytes :=
  ⟨[], rest, by simp, rfl⟩

theorem Placed.le (h : Placed buf pos bytes) : pos + bytes.length ≤ buf.length := by
  obtain ⟨before, after, rfl, rfl⟩ := h
  simp

/-- A record is taken apart field by field. -/
theorem placed_append : Placed buf pos (bytes ++ rest) ↔
    Placed buf pos bytes ∧ Placed buf (pos + bytes.length) rest := by
  constructor
  · rintro ⟨before, after, rfl, rfl⟩
    exact ⟨⟨before, rest ++ after, by simp, rfl⟩, ⟨before ++ bytes, after, by simp, by simp⟩⟩
  · rintro ⟨⟨before, after, rfl, rfl⟩, before', after', heq, hlength⟩
    obtain ⟨rfl, rfl⟩ := List.append_inj (heq.trans (List.append_assoc _ _ _)) (by simp [hlength])
    exact ⟨before, after', by simp, rfl⟩

theorem placed_cons {b} : Placed buf pos (b :: rest) ↔
    Placed buf pos [b] ∧ Placed buf (pos + 1) rest :=
  @placed_append buf pos [b] rest

theorem Placed.get (h : Placed buf pos bytes) {i} (hi : i < bytes.length) :
    buf[pos + i]? = bytes[i]? := by
  obtain ⟨before, after, rfl, rfl⟩ := h
  rw [List.append_assoc, List.getElem?_append_right (Nat.le_add_right _ _), Nat.add_sub_cancel_left,
    List.getElem?_append_left hi]

theorem Placed.read_eq (h : Placed buf pos bytes) {i} (hi : i < bytes.length) :
    (read buf (pos + i) : Checked ε UInt8) = read bytes i := by
  rw [read, read, h.get hi, List.getElem?_eq_getElem hi]

theorem Placed.read {b} (h : Placed buf pos [b]) : (read buf pos : Checked ε UInt8) = .ok b := by
  rw [← Nat.add_zero pos, h.read_eq Nat.zero_lt_one]
  rfl

theorem Placed.assign (h : Placed buf pos bytes) :
    (assign buf pos bytes.length : Checked ε (List UInt8)) = .ok bytes := by
  rw [assign_eq h.le]
  obtain ⟨before, after, rfl, rfl⟩ := h
  simp

/-! ## Big-endian numbers -/

open UInt8

def put16 (n : Nat) : List UInt8 := [ofNat (n / 256), ofNat n]

def put32 (n : Nat) : List UInt8 := put16 (n / 65536) ++ put16 n

@[simp] theorem length_put16 (n : Nat) : (put16 n).length = 2 := rfl

@[simp] theorem length_put32 (n : Nat) : (put32 n).length = 4 := rfl

theorem Placed.read16_mod {n} (h : Placed buf pos (put16 n)) :
    (read16 buf pos : Checked ε Nat) = .ok (n % 65536) := by
  obtain ⟨hhigh, hlow⟩ := placed_cons.1 h
  rw [read16, hhigh.read, ok_bind, hlow.read, ok_bind]
  simp only [toNat_ofNat']
  congr 1
  omega

theorem Placed.read16 {n} (h : Placed buf pos (put16 n)) (hn : n < 65536) :
    (read16 buf pos : Checked ε Nat) = .ok n := by
  rw [h.read16_mod, Nat.mod_eq_of_lt hn]

theorem Placed.read32 {n} (h : Placed buf pos (put32 n)) (hn : n < 4294967296) :
    (read32 buf pos : Checked ε Nat) = .ok n := by
  obtain ⟨hhigh, hlow⟩ := placed_append.1 h
  rw [length_put16] at hlow
  rw [Checked.read32, hhigh.read16_mod, ok_bind, hlow.read16_mod, ok_bind]
  congr 1
  omega

/-! ## Variable-length integers -/

/-- A number in base 128, least significant digit first, with the high bit set on every byte but the
last. -/
def varint : Nat → Nat → List UInt8
  | 0, _ => []
  | digits + 1, n =>
    if n / 128 = 0 then [ofNat (n % 128)]
    else (ofNat (n % 128) ||| 0x80) :: varint digits (n / 128)

/-- What each byte is. -/
theorem varint_bytes : ∀ d < 128, ((ofNat d &&& 0x7F).toNat = d ∧ ofNat d &&& 0x80 = 0)
    ∧ (((ofNat d ||| 0x80) &&& 0x7F).toNat = d ∧ (ofNat d ||| 0x80) &&& 0x80 ≠ 0) := by
  decide +kernel

theorem varint_pos (digits n : Nat) (h : 0 < digits) : 0 < (varint digits n).length := by
  cases digits with
  | zero => exact absurd h (Nat.lt_irrefl 0)
  | succ digits =>
    rw [varint]
    split <;> simp

end Checked

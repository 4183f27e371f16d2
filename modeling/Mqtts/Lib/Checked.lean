import Mathlib.Algebra.Order.Ring.Int
import Mathlib.Tactic.Common

/-!
# Programs that read a buffer, with memory faults

A program that walks over a byte buffer with a cursor ends with a value, with an error of its own,
or with a fault: a read outside of the buffer, an unsigned subtraction below zero, an allocation of
more bytes than the buffer has, or a write through a null pointer. A fault ends the program, since
nothing can be said about what a real program does after it.
-/

namespace Checked

inductive Fault where
  | outOfBounds (offset : Nat)
  | underflow
  | overAllocation (bytes : Nat)
  | nullPointer
  deriving DecidableEq

inductive Failure (ε : Type) where
  | error (e : ε)
  | fault (f : Fault)
  deriving DecidableEq

end Checked

abbrev Checked (ε α : Type) := Except (Checked.Failure ε) α

namespace Checked

variable {ε ε' α β : Type}

def fail (e : ε) : Checked ε α := .error (.error e)

def Faults (x : Checked ε α) : Prop := ∃ f, x = .error (.fault f)

def Succeeds (x : Checked ε α) : Prop := ∃ a, x = .ok a

def read (buf : List UInt8) (i : Nat) : Checked ε UInt8 :=
  match buf[i]? with
  | some b => .ok b
  | none => .error (.fault (.outOfBounds i))

def read16 (buf : List UInt8) (i : Nat) : Checked ε Nat := do
  let a ← read buf i
  let b ← read buf (i + 1)
  .ok (a.toNat * 256 + b.toNat)

def read32 (buf : List UInt8) (i : Nat) : Checked ε Nat := do
  let high ← read16 buf i
  let low ← read16 buf (i + 2)
  .ok (high * 65536 + low)

def sub (a b : Nat) : Checked ε Nat :=
  if b ≤ a then .ok (a - b) else .error (.fault .underflow)

def assign (buf : List UInt8) (i n : Nat) : Checked ε (List UInt8) :=
  if buf.length < n then .error (.fault (.overAllocation n))
  else if buf.length < i + n then .error (.fault (.outOfBounds buf.length))
  else .ok ((buf.drop i).take n)

def nullWrite : Checked ε α := .error (.fault .nullPointer)

def refuse (c : Prop) [Decidable c] (e : ε) : Checked ε Unit := if c then fail e else .ok ()

def mapError (f : ε → ε') : Checked ε α → Checked ε' α
  | .ok a => .ok a
  | .error (.error e) => .error (.error (f e))
  | .error (.fault g) => .error (.fault g)

/-! ## Operations that do not fault -/

@[simp] theorem ok_bind (a : α) (f : α → Checked ε β) : ((.ok a : Checked ε α) >>= f) = f a := rfl

@[simp] theorem error_bind (e : Failure ε) (f : α → Checked ε β) :
    ((.error e : Checked ε α) >>= f) = .error e := rfl

variable {x : Checked ε α} {buf : List UInt8} {i : Nat}

theorem exists_of_bind_eq_ok {f : α → Checked ε β} {b} (h : (x >>= f) = .ok b) :
    ∃ a, x = .ok a ∧ f a = .ok b := by
  cases x with
  | error e => cases h
  | ok a => exact ⟨a, rfl, h⟩

theorem succeeds_ok (a : α) : Succeeds (.ok a : Checked ε α) := ⟨a, rfl⟩

theorem Succeeds.bind {f : α → Checked ε β} (h : Succeeds x) (hf : ∀ a, Succeeds (f a)) :
    Succeeds (x >>= f) := by
  obtain ⟨a, rfl⟩ := h
  exact hf a

theorem Succeeds.ite {c} [Decidable c] {y} (h : c → Succeeds x)
    (h' : ¬ c → Succeeds y) : Succeeds (if c then x else y) := by
  split_ifs with hc
  · exact h hc
  · exact h' hc

theorem succeeds_read (h : i < buf.length) : Succeeds (read buf i : Checked ε UInt8) := by
  simp [read, h, Succeeds]

def byteAt (buf : List UInt8) (i : Nat) : UInt8 := (buf[i]?).getD 0

def number16 (buf : List UInt8) (i : Nat) : Nat :=
  (byteAt buf i).toNat * 256 + (byteAt buf (i + 1)).toNat

theorem read_eq (h : i < buf.length) : (read buf i : Checked ε UInt8) = .ok (byteAt buf i) := by
  simp [read, byteAt, h]

theorem read_of_le (h : buf.length ≤ i) :
    (read buf i : Checked ε UInt8) = .error (.fault (.outOfBounds i)) := by
  simp [read, h]

theorem read16_eq (h : i + 2 ≤ buf.length) :
    (read16 buf i : Checked ε Nat) = .ok (number16 buf i) := by
  rw [read16, read_eq (by omega), read_eq (by omega)]
  rfl

theorem read16_faults {buf i} (h : buf.length < i + 2) : Faults (read16 buf i : Checked ε Nat) := by
  rw [read16]
  rcases Nat.lt_or_ge i buf.length with hi | hi
  · rw [read_eq hi, read_of_le (by omega)]
    exact ⟨_, rfl⟩
  · rw [read_of_le hi]
    exact ⟨_, rfl⟩

theorem succeeds_read32 {buf i} (h : i + 4 ≤ buf.length) :
    Succeeds (read32 buf i : Checked ε Nat) := by
  rw [read32, read16_eq (by omega), read16_eq (by omega)]
  exact succeeds_ok _

theorem read32_faults {buf i} (h : buf.length < i + 4) : Faults (read32 buf i : Checked ε Nat) := by
  rw [read32]
  rcases Nat.lt_or_ge buf.length (i + 2) with hi | hi
  · obtain ⟨f, hf⟩ := @read16_faults ε buf i hi
    rw [hf]
    exact ⟨f, rfl⟩
  · obtain ⟨f, hf⟩ := @read16_faults ε buf (i + 2) (by omega)
    rw [read16_eq hi, hf]
    exact ⟨f, rfl⟩

@[simp] theorem sub_eq {a b} (h : b ≤ a) : (sub a b : Checked ε Nat) = .ok (a - b) :=
  if_pos h

theorem sub_of_lt {a b} (h : a < b) : (sub a b : Checked ε Nat) = .error (.fault .underflow) :=
  if_neg (by omega)

theorem assign_eq {n} (h : i + n ≤ buf.length) :
    (assign buf i n : Checked ε (List UInt8)) = .ok ((buf.drop i).take n) := by
  rw [assign, if_neg (by omega), if_neg (by omega)]

/-! ## Scans -/

/-- The walk without the values: where it ends, that it stops with an error, or that it is cut by a
fault. -/
inductive Scan where
  | ends (pos : Nat)
  | stops
  | cut

def Scan.andThen : Scan → (Nat → Scan) → Scan
  | .ends p, g => g p
  | .stops, _ => .stops
  | .cut, _ => .cut

/-- A program walks as the scan says. -/
def Follows (bound : Nat) (endOf : α → Nat) : Checked ε α → Scan → Prop
  | .ok a, .ends p => endOf a = p ∧ p ≤ bound
  | .error (.error _), .stops => True
  | .error (.fault _), .cut => True
  | _, _ => False

section Follows

variable {bound : Nat} {endOf : α → Nat} {endOf' : β → Nat} {x : Checked ε α} {s : Scan}

theorem Follows.faults_iff (h : Follows bound endOf x s) : Faults x ↔ s = .cut := by
  rcases x with (e | f) | a <;> cases s <;> simp_all [Follows, Faults]

theorem Follows.le_of_ok {a} (h : Follows bound endOf x s) (hx : x = .ok a) : endOf a ≤ bound := by
  subst hx
  cases s with
  | ends p => exact h.1 ▸ h.2
  | stops | cut => exact h.elim

theorem follows_ok {a} (h : endOf a ≤ bound) :
    Follows bound endOf (.ok a : Checked ε α) (.ends (endOf a)) := ⟨rfl, h⟩

theorem follows_fail {e} : Follows bound endOf (fail e : Checked ε α) .stops := trivial

theorem Follows.bind {f : α → Checked ε β} {g : Nat → Scan} (h : Follows bound endOf x s)
    (hf : ∀ a, x = .ok a → s = .ends (endOf a) → endOf a ≤ bound →
      Follows bound endOf' (f a) (g (endOf a))) :
    Follows bound endOf' (x >>= f) (s.andThen g) := by
  rcases x with (e | e) | a <;> cases s <;> try exact h.elim
  · trivial
  · trivial
  · obtain ⟨rfl, hb⟩ := h
    exact hf a rfl rfl hb

theorem Follows.map {f : α → β} (h : Follows bound endOf x s) (hf : ∀ a, endOf' (f a) = endOf a) :
    Follows bound endOf' (x >>= fun a => .ok (f a)) s := by
  rcases x with (e | e) | a <;> cases s <;> first | exact h.elim | exact h | skip
  exact ⟨(hf a).trans h.1, h.2⟩

theorem Follows.mapError (f : ε → ε') (h : Follows bound endOf x s) :
    Follows bound endOf (Checked.mapError f x) s := by
  rcases x with (e | e) | a <;> cases s <;> first | exact h.elim | exact h

theorem Follows.ite {c} [Decidable c] {x y : Checked ε α} {s t}
    (h : c → Follows bound endOf x s) (h' : ¬ c → Follows bound endOf y t) :
    Follows bound endOf (if c then x else y) (if c then s else t) := by
  by_cases hc : c
  · rw [if_pos hc, if_pos hc]
    exact h hc
  · rw [if_neg hc, if_neg hc]
    exact h' hc

end Follows

/-! ## Whether a program faults -/

section Faults

variable {bound : Nat} {endOf : α → Nat} {x : Checked ε α} {s : Scan}

@[simp] theorem not_faults_ok (a : α) : ¬ Faults (.ok a : Checked ε α) := by simp [Faults]

@[simp] theorem not_faults_fail (e : ε) : ¬ Faults (fail e : Checked ε α) := by simp [Faults, fail]

variable {f : α → Checked ε β}

theorem Follows.faults_bind {g : Nat → Scan} (h : Follows bound endOf x s)
    (hf : ∀ a, x = .ok a → s = .ends (endOf a) → endOf a ≤ bound →
    (Faults (f a) ↔ g (endOf a) = .cut)) : Faults (x >>= f) ↔ s.andThen g = .cut := by
  rcases x with (e | e) | a <;> cases s <;> try exact h.elim
  · simp [Faults, Scan.andThen]
  · simp [Faults, Scan.andThen]
  · obtain ⟨rfl, hb⟩ := h
    exact hf a rfl rfl hb

theorem not_faults_bind (h : ¬ Faults x) (hf : ∀ a, x = .ok a → ¬ Faults (f a)) :
    ¬ Faults (x >>= f) := by
  rcases x with (e | e) | a
  · simp [Faults]
  · exact absurd ⟨e, rfl⟩ h
  · exact hf a rfl

theorem faults_refuse {c} [Decidable c] {e} {f : Unit → Checked ε α} :
    Faults (refuse c e >>= f) ↔ ¬ c ∧ Faults (f ()) := by
  by_cases hc : c
  · simp [refuse, hc, fail, Faults]
  · simp [refuse, hc]

theorem faults_nullWrite : Faults (nullWrite : Checked ε α) := ⟨_, rfl⟩

theorem faults_bind_ok {f : α → β} :
    Faults (x >>= fun a => (.ok (f a) : Checked ε β)) ↔ Faults x := by
  rcases x with (e | e) | a <;> simp [Faults]

theorem faults_bind_of_not_faults (hf : ∀ a, x = .ok a → ¬ Faults (f a)) :
    Faults (x >>= f) ↔ Faults x := by
  rcases x with (e | e) | a
  · simp [Faults]
  · simp [Faults]
  · simp only [ok_bind, not_faults_ok, iff_false]
    exact hf a rfl

end Faults

end Checked

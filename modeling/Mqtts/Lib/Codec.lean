import Mathlib.Algebra.Order.Ring.Int
import Mathlib.Tactic.Common

/-!
# Little-endian records

Writers are functions to byte lists, decoders are a state monad over the bytes that are left; a text
is its length in four bytes and then its bytes. Decoders are composed by `Decodes.bind`,
`Decodes.map` and `decodes_times`, so a round trip of a record follows the order of its fields.
-/

namespace Codec

open List UInt8

class Malformed (ε : Type) where
  truncated : ε
  trailing : ε

/-! ## Writers -/

def putByte (n : Nat) : List UInt8 := [ofNat n]

def putWord : Nat → Nat → List UInt8
  | 0, _ => []
  | w + 1, n => ofNat n :: putWord w (n / 256)

def putText (s : List UInt8) : List UInt8 := putWord 4 s.length ++ s

def ofInt64 (z : Int) : Nat := (z % 2 ^ 64).toNat

def toInt64 (n : Nat) : Int := if n < 2 ^ 63 then n else n - 2 ^ 64

@[simp] theorem length_putByte (n : Nat) : (putByte n).length = 1 := rfl

@[simp] theorem length_putWord : ∀ w n, (putWord w n).length = w
  | 0, _ => rfl
  | w + 1, n => by simp [putWord, length_putWord w]

@[simp] theorem length_putText (s : List UInt8) : (putText s).length = 4 + s.length := by
  simp [putText]

theorem putWord_mod : ∀ w n, putWord w (n % 256 ^ w) = putWord w n
  | 0, _ => rfl
  | w + 1, n => by
    have hlow : UInt8.ofNat (n % 256 ^ (w + 1)) = UInt8.ofNat n := by
      apply UInt8.toNat_inj.1
      rw [UInt8.toNat_ofNat', UInt8.toNat_ofNat']
      exact Nat.mod_mod_of_dvd n ⟨256 ^ w, by rw [Nat.pow_succ, Nat.mul_comm]⟩
    have hhigh : n % 256 ^ (w + 1) / 256 = n / 256 % 256 ^ w := by
      rw [Nat.pow_succ, Nat.mul_comm, Nat.mod_mul_right_div_self]
    rw [putWord, putWord, hlow, hhigh, putWord_mod w]

/-! ## Decoders -/

def Decoder (ε α : Type) : Type := List UInt8 → Except ε (α × List UInt8)

namespace Decoder

variable {ε α β : Type}

def bind (d : Decoder ε α) (f : α → Decoder ε β) : Decoder ε β := fun input =>
  match d input with
  | .error e => .error e
  | .ok (a, rest) => f a rest

instance : Monad (Decoder ε) where
  pure a := fun input => .ok (a, input)
  bind := bind

def fail (e : ε) : Decoder ε α := fun _ => .error e

def refuse (c : Prop) [Decidable c] (e : ε) : Decoder ε Unit := if c then fail e else pure ()

def remaining : Decoder ε Nat := fun input => .ok (input.length, input)

def times (d : Decoder ε α) : Nat → Decoder ε (List α)
  | 0 => pure []
  | n + 1 => do
    let a ← d
    let as ← times d n
    pure (a :: as)

variable [Malformed ε]

def byte : Decoder ε Nat
  | [] => .error Malformed.truncated
  | b :: rest => .ok (b.toNat, rest)

/-- A number of `w` bytes, least significant first. -/
def word : Nat → Decoder ε Nat
  | 0 => pure 0
  | w + 1 => do
    let b ← byte
    let n ← word w
    pure (b + 256 * n)

def bytes (n : Nat) : Decoder ε (List UInt8) := fun input =>
  if n ≤ input.length then .ok (input.take n, input.drop n) else .error Malformed.truncated

def text : Decoder ε (List UInt8) := do
  let n ← word 4
  bytes n

def signed : Decoder ε Int := do
  let n ← word 8
  pure (toInt64 n)

def done : Decoder ε Unit
  | [] => .ok ((), [])
  | _ :: _ => .error Malformed.trailing

def run (d : Decoder ε α) (input : List UInt8) : Except ε α :=
  match d input with
  | .error e => .error e
  | .ok (a, _) => .ok a

end Decoder

open Decoder

/-! ## Round trips -/

variable {ε α β : Type}

/-- The decoder takes exactly the bytes `bs` from the front of any input and returns `a`. -/
def Decodes (d : Decoder ε α) (bs : List UInt8) (a : α) : Prop :=
  ∀ rest, d (bs ++ rest) = .ok (a, rest)

theorem decodes_pure (a : α) : Decodes (pure a : Decoder ε α) [] a := fun _ => rfl

variable {d : Decoder ε α} {f : α → Decoder ε β} {bs : List UInt8}

theorem Decodes.bind {bs' a b} (h : Decodes d bs a)
    (h' : Decodes (f a) bs' b) : Decodes (d >>= f) (bs ++ bs') b := by
  intro rest
  show Decoder.bind d f _ = _
  rw [Decoder.bind, append_assoc, h (bs' ++ rest)]
  exact h' rest

theorem Decodes.map {a} (h : Decodes d bs a) (f : α → β) :
    Decodes (d >>= fun a => pure (f a)) bs (f a) := by
  rw [← append_nil bs]
  exact h.bind (decodes_pure (f a))

theorem decodes_refuse {c} [Decidable c] {e} (h : ¬ c) :
    Decodes (refuse c e : Decoder ε Unit) [] () := by
  rw [refuse, if_neg h]
  exact decodes_pure ()

theorem decodes_times {put : α → List UInt8} : ∀ {as : List α}, (∀ a ∈ as, Decodes d (put a) a) →
    Decodes (times d as.length) (as.flatMap put) as
  | [], _ => decodes_pure []
  | a :: as, h => by
    have htail : Decodes (times d as.length) (as.flatMap put) as :=
      decodes_times fun b hb => h b (mem_cons_of_mem a hb)
    exact (h a mem_cons_self).bind (htail.map (a :: ·))

variable [Malformed ε]

theorem decodes_byte {n} (h : n < 256) : Decodes (byte : Decoder ε Nat) (putByte n) n := by
  intro rest
  simp [putByte, byte, Nat.mod_eq_of_lt h]

theorem decodes_word : ∀ {w n}, n < 256 ^ w → Decodes (word w : Decoder ε Nat) (putWord w n) n
  | 0, n, h => by
    obtain rfl : n = 0 := by simpa using h
    exact decodes_pure 0
  | w + 1, n, h => by
    have hdiv : n / 256 < 256 ^ w := by
      rw [Nat.pow_succ] at h
      exact Nat.div_lt_of_lt_mul (by omega)
    have hbyte : Decodes (byte : Decoder ε Nat) [ofNat n] (n % 256) := fun rest => by
      simp [byte]
    have hrec : Decodes (word (w + 1) : Decoder ε Nat) _ (n % 256 + 256 * (n / 256)) :=
      hbyte.bind ((decodes_word hdiv).map (n % 256 + 256 * ·))
    rwa [Nat.mod_add_div] at hrec

theorem decodes_bytes (s : List UInt8) : Decodes (bytes s.length : Decoder ε (List UInt8)) s s := by
  intro rest
  simp [bytes]

theorem decodes_text {s} (h : s.length < 2 ^ 32) :
    Decodes (text : Decoder ε (List UInt8)) (putText s) s :=
  (decodes_word (by omega)).bind (decodes_bytes s)

/-! ## What a decoder accepts -/

omit [Malformed ε] in
theorem decoder_bind_eq_ok {input rest b} (h : (d >>= f) input = .ok (b, rest)) :
    ∃ a mid, d input = .ok (a, mid) ∧ f a mid = .ok (b, rest) := by
  have h' : Decoder.bind d f input = .ok (b, rest) := h
  unfold Decoder.bind at h'
  cases hd : d input with
  | error e =>
    rw [hd] at h'
    cases h'
  | ok r =>
    rw [hd] at h'
    exact ⟨r.1, r.2, rfl, h'⟩

/-- Whatever the decoder returns, on any input, has the property. -/
def Yields (d : Decoder ε α) (P : α → Prop) : Prop :=
  ∀ input a rest, d input = .ok (a, rest) → P a

section

omit [Malformed ε]

theorem yields_any (d : Decoder ε α) : Yields d (fun _ => True) := fun _ _ _ _ => trivial

variable {P : α → Prop} {d : Decoder ε α}

theorem yields_pure {a} (h : P a) : Yields (pure a : Decoder ε α) P := fun _ _ _ heq => by
  cases heq
  exact h

theorem yields_fail {e} : Yields (fail e : Decoder ε α) P := fun _ _ _ heq => by
  cases heq

theorem yields_refuse {c} [Decidable c] {e} :
    Yields (refuse c e : Decoder ε Unit) (fun _ => ¬ c) := fun _ _ _ heq => by
  rw [refuse] at heq
  split at heq
  · cases heq
  · next hc => exact hc

theorem Yields.bind {f : α → Decoder ε β} {Q : β → Prop} (h : Yields d P)
    (h' : ∀ a, P a → Yields (f a) Q) : Yields (d >>= f) Q := fun _ _ _ heq => by
  obtain ⟨a, mid, hd, hf⟩ := decoder_bind_eq_ok heq
  exact h' a (h _ _ _ hd) _ _ _ hf

theorem yields_times (h : Yields d P) :
    ∀ n, Yields (times d n) fun as => as.length = n ∧ ∀ a ∈ as, P a
  | 0 => yields_pure ⟨rfl, fun a ha => by cases ha⟩
  | n + 1 => h.bind fun a ha => (yields_times h n).bind fun as has => yields_pure
      ⟨by rw [length_cons, has.1], fun b hb => by
        rcases mem_cons.1 hb with rfl | hb
        · exact ha
        · exact has.2 b hb⟩

theorem Yields.run (h : Yields d P) {input a} (heq : Decoder.run d input = .ok a) : P a := by
  rw [Decoder.run] at heq
  split at heq
  · cases heq
  · next hd =>
      cases heq
      exact h _ _ _ hd

end

/-! ## More input

A decoder that has what it needs does not look at what follows, so a record that was cut off is
not decoded (`Decodes.error_of_cut`). -/

/-- The decoder goes on in the same way when more input follows. -/
def Extends (d : Decoder ε α) : Prop :=
  ∀ input a rest more, d input = .ok (a, rest) → d (input ++ more) = .ok (a, rest ++ more)

omit [Malformed ε] in
theorem extends_pure (a : α) : Extends (pure a : Decoder ε α) := fun _ _ _ _ h => by
  cases h
  rfl

omit [Malformed ε] in
theorem Extends.bind (h : Extends d) (h' : ∀ a, Extends (f a)) :
    Extends (d >>= f) := fun input b rest more heq => by
  obtain ⟨a, mid, hd, hf⟩ := decoder_bind_eq_ok heq
  show Decoder.bind d f _ = _
  rw [Decoder.bind, h input a mid more hd]
  exact h' a mid b rest more hf

omit [Malformed ε] in
theorem extends_refuse {c} [Decidable c] {e} : Extends (refuse c e : Decoder ε Unit) := by
  unfold refuse
  split
  · intro input a rest more h
    cases h
  · exact extends_pure ()

omit [Malformed ε] in
theorem extends_times (h : Extends d) : ∀ n, Extends (times d n)
  | 0 => extends_pure []
  | n + 1 => h.bind fun _ => (extends_times h n).bind fun _ => extends_pure _

theorem extends_byte : Extends (byte : Decoder ε Nat) := fun input b rest more h => by
  cases input with
  | nil => cases h
  | cons c input =>
    cases h
    rfl

theorem extends_word : ∀ w, Extends (word w : Decoder ε Nat)
  | 0 => extends_pure 0
  | w + 1 => extends_byte.bind fun _ => (extends_word w).bind fun _ => extends_pure _

theorem extends_bytes (n : Nat) : Extends (bytes n : Decoder ε (List UInt8)) := by
  intro input a rest more h
  unfold bytes at h ⊢
  split at h
  · next hle =>
      cases h
      rw [if_pos (by rw [length_append]; omega), take_append_of_le_length hle,
        drop_append_of_le_length hle]
  · cases h

theorem extends_text : Extends (text : Decoder ε (List UInt8)) :=
  (extends_word 4).bind fun n => extends_bytes n

omit [Malformed ε] in
theorem Extends.error_of_append (h : Extends d) {input more}
    (herror : ∃ e, d (input ++ more) = .error e) : ∃ e, d input = .error e := by
  cases hd : d input with
  | error e => exact ⟨e, rfl⟩
  | ok r =>
    obtain ⟨e, he⟩ := herror
    rw [h input r.1 r.2 more hd] at he
    cases he

omit [Malformed ε] in
theorem Decodes.error_of_cut {a} (h : Decodes d bs a) (hextends : Extends d) {cut}
    (hcut : cut < bs.length) : ∃ e, d (bs.take cut) = .error e := by
  cases hd : d (bs.take cut) with
  | error e => exact ⟨e, rfl⟩
  | ok r =>
    have hwhole := h []
    rw [append_nil, ← take_append_drop cut bs,
      hextends (bs.take cut) r.1 r.2 (bs.drop cut) hd] at hwhole
    have hrest := (Prod.mk.inj (Except.ok.inj hwhole)).2
    have := congrArg List.length hrest
    rw [length_append, length_drop, length_nil] at this
    omega

/-! ## Whole records -/

/-- The decoder takes `bs`, and neither a part of it nor more. -/
structure DecodesOnly (d : Decoder ε α) (bs : List UInt8) (a : α) : Prop where
  whole : d bs = .ok (a, [])
  cut : ∀ {part}, part <+: bs → part ≠ bs → ∃ e, d part = .error e
  longer : ∀ {more}, more ≠ [] → ∃ e, d (bs ++ more) = .error e

theorem decodesOnly_done (a : α) : DecodesOnly (do done; pure a : Decoder ε α) [] a where
  whole := rfl
  cut hpart hne := absurd (prefix_nil.1 hpart) hne
  longer {more} hmore := by
    cases more with
    | nil => exact absurd rfl hmore
    | cons b more => exact ⟨Malformed.trailing, rfl⟩

omit [Malformed ε] in
theorem Decodes.only {bs' a b} (h : Decodes d bs a) (hextends : Extends d)
    (h' : DecodesOnly (f a) bs' b) : DecodesOnly (d >>= f) (bs ++ bs') b := by
  have hf : ∀ rest, (d >>= f) (bs ++ rest) = f a rest := fun rest => by
    show Decoder.bind d f _ = _
    rw [Decoder.bind, h rest]
  refine ⟨by rw [hf, h'.whole], fun {part} hpart hne => ?_, fun {more} hmore => ?_⟩
  · obtain ⟨t, ht⟩ := hpart
    rcases append_eq_append_iff.1 ht with ⟨_ | ⟨c, as⟩, rfl, -⟩ | ⟨part', rfl, rfl⟩
    · have hnil := h'.cut nil_prefix fun heq => hne (by rw [← heq, append_nil, append_nil])
      rwa [← hf, append_nil, append_nil] at hnil
    · obtain ⟨e, he⟩ := h.error_of_cut hextends (by simp : part.length < _)
      rw [take_left] at he
      exact ⟨e, by show Decoder.bind d f _ = _; rw [Decoder.bind, he]⟩
    · rw [hf]
      exact h'.cut (prefix_append part' t) fun heq => hne (by rw [← heq])
  · rw [append_assoc, hf]
    exact h'.longer hmore

end Codec

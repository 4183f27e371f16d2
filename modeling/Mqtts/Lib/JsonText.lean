import Mathlib.Data.Nat.Digits.Defs

/-!
# JSON text of numbers and strings

How a JSON writer prints a number and a string, as bytes. A string is quoted, with the control
characters, the quote and the backslash escaped; bytes above the control characters are printed as
they are. A text that is put together from such parts determines the parts.
-/

namespace JsonText

open List UInt8

/-! ## Strings -/

def hexDigit (n : UInt8) : UInt8 := if n < 10 then 0x30 + n else 0x57 + n

def escapeByte (b : UInt8) : List UInt8 :=
  if b = 0x08 then [0x5C, 0x62]
  else if b = 0x09 then [0x5C, 0x74]
  else if b = 0x0A then [0x5C, 0x6E]
  else if b = 0x0C then [0x5C, 0x66]
  else if b = 0x0D then [0x5C, 0x72]
  else if b = 0x22 then [0x5C, 0x22]
  else if b = 0x5C then [0x5C, 0x5C]
  else if b ≤ 0x1F then [0x5C, 0x75, 0x30, 0x30, hexDigit (b / 16), hexDigit (b % 16)]
  else [b]

def escape (s : List UInt8) : List UInt8 := s.flatMap escapeByte

def quote (s : List UInt8) : List UInt8 := 0x22 :: (escape s ++ [0x22])

def hexValue (d : UInt8) : UInt8 := if d < 0x3A then d - 0x30 else d - 0x57

def unescapeByte : List UInt8 → Option (UInt8 × List UInt8)
  | 0x5C :: 0x62 :: r => some (0x08, r)
  | 0x5C :: 0x74 :: r => some (0x09, r)
  | 0x5C :: 0x6E :: r => some (0x0A, r)
  | 0x5C :: 0x66 :: r => some (0x0C, r)
  | 0x5C :: 0x72 :: r => some (0x0D, r)
  | 0x5C :: 0x22 :: r => some (0x22, r)
  | 0x5C :: 0x5C :: r => some (0x5C, r)
  | 0x5C :: 0x75 :: 0x30 :: 0x30 :: h :: l :: r => some (hexValue h * 16 + hexValue l, r)
  | b :: r => some (b, r)
  | [] => none

theorem hexValue_hexDigit {b} (h : b ≤ 0x1F) :
    hexValue (hexDigit (b / 16)) * 16 + hexValue (hexDigit (b % 16)) = b := by
  have hall : ∀ n < 32, hexValue (hexDigit (ofNat n / 16)) * 16 +
      hexValue (hexDigit (ofNat n % 16)) = ofNat n := by
    decide
  have hlt : b.toNat < 32 := Nat.lt_succ_of_le (le_iff_toNat_le.1 h)
  simpa using hall b.toNat hlt

theorem unescapeByte_escapeByte (b : UInt8) (r : List UInt8) :
    unescapeByte (escapeByte b ++ r) = some (b, r) := by
  unfold escapeByte
  split_ifs with h₁ h₂ h₃ h₄ h₅ h₆ h₇ h₈
  iterate 7 (subst b; rfl)
  · show some (_, r) = _
    rw [hexValue_hexDigit h₈]
  · simp only [cons_append, nil_append]
    unfold unescapeByte
    split <;> simp_all

theorem escapeByte_eq_cons (b : UInt8) : ∃ c l, escapeByte b = c :: l ∧ c ≠ 0x22 := by
  unfold escapeByte
  split_ifs with h₁ h₂ h₃ h₄ h₅ h₆
  iterate 8 exact ⟨_, _, rfl, by decide⟩
  exact ⟨b, [], rfl, h₆⟩

theorem escape_append_inj : ∀ {s t r u},
    escape s ++ 0x22 :: r = escape t ++ 0x22 :: u → s = t ∧ r = u
  | [], [], r, u, h => ⟨rfl, (List.cons.inj h).2⟩
  | [], b :: t, r, u, h => by
    obtain ⟨c, l, hb, hc⟩ := escapeByte_eq_cons b
    simp only [escape, flatMap_cons, hb] at h
    exact absurd (List.cons.inj h).1.symm hc
  | a :: s, [], r, u, h => by
    obtain ⟨c, l, ha, hc⟩ := escapeByte_eq_cons a
    simp only [escape, flatMap_cons, ha] at h
    exact absurd (List.cons.inj h).1 hc
  | a :: s, b :: t, r, u, h => by
    have hfirst : escapeByte a ++ (escape s ++ 0x22 :: r) =
        escapeByte b ++ (escape t ++ 0x22 :: u) := by
      simpa [escape] using h
    have hread := congrArg unescapeByte hfirst
    rw [unescapeByte_escapeByte, unescapeByte_escapeByte] at hread
    obtain ⟨hab, hrest⟩ := Prod.mk.inj (Option.some.inj hread)
    obtain ⟨hst, hru⟩ := escape_append_inj hrest
    exact ⟨by rw [hab, hst], hru⟩

/-- A quoted string can be read back from the front of any text, -/
theorem quote_append_inj {s t r u} (h : quote s ++ r = quote t ++ u) : s = t ∧ r = u := by
  refine escape_append_inj ?_
  simpa [quote] using h

/-! ## Numbers -/

def decimal (n : Nat) : List UInt8 :=
  if n = 0 then [0x30] else ((Nat.digits 10 n).map fun d => ofNat (0x30 + d)).reverse

def decimalValue (ds : List UInt8) : Nat := Nat.ofDigits 10 (ds.reverse.map (·.toNat - 0x30))

theorem toNat_digit {d} (h : d < 10) : (ofNat (0x30 + d)).toNat = 0x30 + d := by
  rw [toNat_ofNat']
  omega

theorem decimalValue_decimal (n : Nat) : decimalValue (decimal n) = n := by
  unfold decimal
  split_ifs with hn
  · subst n
    rfl
  · rw [decimalValue, reverse_reverse, map_map]
    have hdigits : (Nat.digits 10 n).map ((fun b : UInt8 => b.toNat - 0x30) ∘
        fun d => ofNat (0x30 + d)) = Nat.digits 10 n := by
      refine (map_congr_left fun d hd => ?_).trans (map_id _)
      rw [Function.comp_apply, toNat_digit (Nat.digits_lt_base (by decide) hd)]
      exact Nat.add_sub_cancel_left ..
    rw [hdigits, Nat.ofDigits_digits]

theorem ne_comma_of_mem_decimal {n b} (h : b ∈ decimal n) : b ≠ 0x2C := by
  unfold decimal at h
  split_ifs at h with hn
  · simp only [mem_singleton] at h
    subst h
    decide
  · simp only [mem_reverse, mem_map] at h
    obtain ⟨d, hd, rfl⟩ := h
    intro hcomma
    have hnat := congrArg toNat hcomma
    rw [toNat_digit (Nat.digits_lt_base (by decide) hd)] at hnat
    change 0x30 + d = 0x2C at hnat
    omega

theorem append_cons_inj {α : Type} {a : α} : ∀ {s t r u}, a ∉ s → a ∉ t →
    s ++ a :: r = t ++ a :: u → s = t ∧ r = u
  | [], [], _, _, _, _, h => ⟨rfl, (List.cons.inj h).2⟩
  | [], b :: t, _, _, _, ht, h => absurd ((List.cons.inj h).1 ▸ mem_cons_self) ht
  | b :: s, [], _, _, hs, _, h => absurd ((List.cons.inj h).1 ▸ mem_cons_self) hs
  | b :: s, c :: t, _, _, hs, ht, h => by
    obtain ⟨hbc, hrest⟩ := List.cons.inj h
    obtain ⟨hst, hru⟩ := append_cons_inj (fun hm => hs (mem_cons_of_mem _ hm))
      (fun hm => ht (mem_cons_of_mem _ hm)) hrest
    exact ⟨by rw [hbc, hst], hru⟩

/-- and so can a number. -/
theorem decimal_append_inj {m n : Nat} {r u}
    (h : decimal m ++ 0x2C :: r = decimal n ++ 0x2C :: u) : m = n ∧ r = u := by
  obtain ⟨hmn, hru⟩ := append_cons_inj (fun hm => ne_comma_of_mem_decimal hm rfl)
    (fun hm => ne_comma_of_mem_decimal hm rfl) h
  refine ⟨?_, hru⟩
  rw [← decimalValue_decimal m, hmn, decimalValue_decimal]

end JsonText

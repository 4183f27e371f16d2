import Mqtts.Protocol.Text
import Mqtts.WebSocket.Assembly

/-!
# The two UTF-8 validators

`mqtt::is_valid_utf8` decodes code points, and `WebSocketFrameParser::is_valid_utf8` looks at the
first two bytes of a sequence. Both are compared with one table of the sequences: the first one
takes those of RFC 3629, and the second one also those that begin with F4 and a byte from 90 on,
which would stand for code points beyond U+10FFFF.
-/

namespace Mqtts.Utf8

open List Checked Protocol

/-! ## Sequences -/

theorem forall_byte {p : UInt8 → Prop} (h : ∀ n < 256, p (UInt8.ofNat n)) (a : UInt8) : p a := by
  have ha := h a.toNat a.toNat_lt
  rwa [UInt8.ofNat_toNat] at ha

theorem bits (a : UInt8) : (a &&& 0xE0 = 0xC0 ↔ 192 ≤ a.toNat ∧ a.toNat < 224) ∧
    (a &&& 0xF0 = 0xE0 ↔ 224 ≤ a.toNat ∧ a.toNat < 240) ∧
    (a &&& 0xF8 = 0xF0 ↔ 240 ≤ a.toNat ∧ a.toNat < 248) ∧
    (a &&& 0xC0 = 0x80 ↔ 128 ≤ a.toNat ∧ a.toNat < 192) ∧ (a = 0xE0 ↔ a.toNat = 224) ∧
    (a = 0xED ↔ a.toNat = 237) ∧ (a = 0xF0 ↔ a.toNat = 240) ∧
    (a &&& 0x1F).toNat = a.toNat % 32 ∧ (a &&& 0x0F).toNat = a.toNat % 16 ∧
    (a &&& 0x07).toNat = a.toNat % 8 ∧ (a &&& 0x3F).toNat = a.toNat % 64 := by
  revert a
  exact forall_byte (by decide +kernel)

def IsContinuation (b : UInt8) : Prop := 128 ≤ b.toNat ∧ b.toNat < 192

def IsSequence : Str → Prop
  | [a] => a.toNat < 128
  | [a, b] => 194 ≤ a.toNat ∧ a.toNat < 224 ∧ IsContinuation b
  | [a, b, c] => 224 ≤ a.toNat ∧ a.toNat < 240 ∧ IsContinuation b ∧ IsContinuation c ∧
    ¬ (a.toNat = 224 ∧ b.toNat < 160) ∧ ¬ (a.toNat = 237 ∧ 160 ≤ b.toNat)
  | [a, b, c, d] => 240 ≤ a.toNat ∧ a.toNat < 245 ∧ IsContinuation b ∧ IsContinuation c ∧
    IsContinuation d ∧ ¬ (a.toNat = 240 ∧ b.toNat < 144) ∧ ¬ (a.toNat = 244 ∧ 144 ≤ b.toNat)
  | _ => False

theorem isSequence_encode (c : Char) : IsSequence (String.utf8EncodeChar c) := by
  have hc := c.valid
  simp only [UInt32.isValidChar, Nat.isValidChar] at hc
  unfold String.utf8EncodeChar
  generalize c.val.toNat = v at hc
  simp only
  split_ifs <;> simp only [IsSequence, IsContinuation, UInt8.toNat_ofNat'] <;> omega

theorem exists_char {v : Nat} (h : v < 0xD800 ∨ 0xDFFF < v ∧ v < 0x110000) :
    ∃ c : Char, c.val.toNat = v := by
  have hv : v.isValidChar := h
  exact ⟨Char.ofNat v, by rw [Char.ofNat, dif_pos hv]; rfl⟩

theorem encode_of_isSequence : ∀ {e}, IsSequence e → ∃ c, e = String.utf8EncodeChar c
  | [a], h => by
    simp only [IsSequence] at h
    obtain ⟨c, hc⟩ := exists_char (v := a.toNat) (by omega)
    refine ⟨c, ?_⟩
    simp only [String.utf8EncodeChar, hc]
    rw [if_pos (by omega), UInt8.ofNat_toNat]
  | [a, b], h => by
    simp only [IsSequence, IsContinuation] at h
    obtain ⟨c, hc⟩ := exists_char (v := (a.toNat - 192) * 64 + (b.toNat - 128)) (by omega)
    refine ⟨c, ?_⟩
    simp only [String.utf8EncodeChar, hc]
    rw [if_neg (by omega), if_pos (by omega)]
    simp only [cons.injEq, ← UInt8.toNat_inj, UInt8.toNat_ofNat', and_true]
    omega
  | [a, b, c], h => by
    simp only [IsSequence, IsContinuation] at h
    obtain ⟨x, hx⟩ := exists_char
      (v := (a.toNat - 224) * 4096 + (b.toNat - 128) * 64 + (c.toNat - 128)) (by omega)
    refine ⟨x, ?_⟩
    simp only [String.utf8EncodeChar, hx]
    rw [if_neg (by omega), if_neg (by omega), if_pos (by omega)]
    simp only [cons.injEq, ← UInt8.toNat_inj, UInt8.toNat_ofNat', and_true]
    omega
  | [a, b, c, d], h => by
    simp only [IsSequence, IsContinuation] at h
    obtain ⟨x, hx⟩ := exists_char (v := (a.toNat - 240) * 262144 + (b.toNat - 128) * 4096 +
      (c.toNat - 128) * 64 + (d.toNat - 128)) (by omega)
    refine ⟨x, ?_⟩
    simp only [String.utf8EncodeChar, hx]
    rw [if_neg (by omega), if_neg (by omega), if_neg (by omega)]
    simp only [cons.injEq, ← UInt8.toNat_inj, UInt8.toNat_ofNat', and_true]
    omega

/-! ## Concatenations -/

theorem wellFormed_iff {s : Str} :
    WebSocket.WellFormed s ↔ ∃ cs : List Char, s = cs.flatMap String.utf8EncodeChar := by
  refine ⟨fun ⟨cs, h⟩ => ⟨cs, by simpa [List.utf8Encode] using h⟩, ?_⟩
  rintro ⟨cs, rfl⟩
  exact ⟨cs, rfl⟩

theorem wellFormed_append {e r} (he : IsSequence e) :
    WebSocket.WellFormed (e ++ r) ↔ WebSocket.WellFormed r := by
  obtain ⟨c, rfl⟩ := encode_of_isSequence he
  have h := @ByteArray.isValidUTF8_utf8Encode_singleton_append_iff r.toByteArray c
  rw [List.utf8Encode_singleton] at h
  simpa [WebSocket.WellFormed] using h

theorem wellFormed_cons {a s} : WebSocket.WellFormed (a :: s) ↔
    ∃ e rest, a :: s = e ++ rest ∧ IsSequence e ∧ WebSocket.WellFormed rest := by
  constructor
  · intro h
    obtain ⟨_ | ⟨c, cs⟩, hcs⟩ := wellFormed_iff.1 h
    · cases hcs
    · exact ⟨_, _, hcs, isSequence_encode c, wellFormed_iff.2 ⟨cs, rfl⟩⟩
  · rintro ⟨e, rest, heq, he, hrest⟩
    rw [heq]
    exact (wellFormed_append he).2 hrest

/-- `WebSocketFrameParser::is_valid_utf8` from place `i` on with its reads, in at most so many
rounds of its loop. -/
def frameLoop {ε : Type} (data : Str) : Nat → Nat → Checked ε Bool
  | 0, _ => .ok true
  | rounds + 1, i =>
    if i < data.length then do
      let byte ← read data i
      if byte ≤ 0x7F then frameLoop data rounds (i + 1)
      else if byte &&& 0xE0 = 0xC0 then
        if i + 1 ≥ data.length then .ok false else do
        let b ← read data (i + 1)
        if b &&& 0xC0 ≠ 0x80 then .ok false
        else if byte < 0xC2 then .ok false
        else frameLoop data rounds (i + 2)
      else if byte &&& 0xF0 = 0xE0 then
        if i + 2 ≥ data.length then .ok false else do
        let b ← read data (i + 1)
        if b &&& 0xC0 ≠ 0x80 then .ok false else do
        let c ← read data (i + 2)
        if c &&& 0xC0 ≠ 0x80 then .ok false
        else if byte = 0xE0 ∧ b < 0xA0 then .ok false
        else if byte = 0xED ∧ b ≥ 0xA0 then .ok false
        else frameLoop data rounds (i + 3)
      else if byte &&& 0xF8 = 0xF0 then
        if i + 3 ≥ data.length then .ok false else do
        let b ← read data (i + 1)
        if b &&& 0xC0 ≠ 0x80 then .ok false else do
        let c ← read data (i + 2)
        if c &&& 0xC0 ≠ 0x80 then .ok false else do
        let d ← read data (i + 3)
        if d &&& 0xC0 ≠ 0x80 then .ok false
        else if byte = 0xF0 ∧ b < 0x90 then .ok false
        else if byte ≥ 0xF5 then .ok false
        else frameLoop data rounds (i + 4)
      else .ok false
    else .ok true

/-! ## The validator of the frames -/

def IsBeyond : Str → Prop
  | [a, b, c, d] => a.toNat = 244 ∧ 144 ≤ b.toNat ∧ IsContinuation b ∧ IsContinuation c ∧
    IsContinuation d
  | _ => False

theorem exists_front {ok v : Str → Prop} (hok : ∀ e, ok e → IsSequence e ∨ IsBeyond e) {a s} :
    (∃ e rest, a :: s = e ++ rest ∧ ok e ∧ v rest) ↔ ok [a] ∧ v s ∨ ∃ b t, s = b :: t ∧
      (ok [a, b] ∧ v t ∨ ∃ c u, t = c :: u ∧ (ok [a, b, c] ∧ v u ∨ ∃ d w, u = d :: w ∧
        ok [a, b, c, d] ∧ v w)) := by
  constructor
  · rintro ⟨e, rest, heq, he, hrest⟩
    match e, hok e he with
    | [_], _ => simp_all
    | [_, _], _ => simp_all
    | [_, _, _], _ => simp_all
    | [_, _, _, _], _ => simp_all
  · rintro (⟨h, hv⟩ | ⟨b, t, rfl, ⟨h, hv⟩ | ⟨c, u, rfl, ⟨h, hv⟩ | ⟨d, w, rfl, h, hv⟩⟩⟩)
    · exact ⟨[a], _, rfl, h, hv⟩
    · exact ⟨[a, b], _, rfl, h, hv⟩
    · exact ⟨[a, b, c], _, rfl, h, hv⟩
    · exact ⟨[a, b, c, d], _, rfl, h, hv⟩

theorem length_lt_of_front {e rest a} {s : Str} (he : IsSequence e ∨ IsBeyond e)
    (heq : a :: s = e ++ rest) : rest.length < (a :: s).length := by
  rw [heq, length_append, Nat.lt_add_left_iff_pos, length_pos_iff]
  rintro rfl
  exact he.elim id id

/-- A round of the loop takes a sequence off the front of the string. -/
theorem frame_step (a : UInt8) (s : Str) : WebSocket.isValidUtf8 (a :: s) ↔
    ∃ e rest, a :: s = e ++ rest ∧ (IsSequence e ∨ IsBeyond e) ∧ WebSocket.isValidUtf8 rest := by
  rw [exists_front fun _ h => h, WebSocket.isValidUtf8.eq_def]
  have ha := bits a
  rcases s with _ | ⟨b, _ | ⟨c, _ | ⟨d, s⟩⟩⟩
  · simp [IsSequence, IsBeyond, ha, UInt8.le_iff_toNat_le]
    omega
  · simp [WebSocket.isContinuation, IsSequence, IsBeyond, IsContinuation, ha, bits b,
      UInt8.le_iff_toNat_le]
    clear ha
    split_ifs <;> grind
  · simp [WebSocket.isContinuation, IsSequence, IsBeyond, IsContinuation, ha, bits b, bits c,
      UInt8.le_iff_toNat_le, UInt8.lt_iff_toNat_lt]
    clear ha
    split_ifs <;> grind
  · simp [WebSocket.isContinuation, IsSequence, IsBeyond, IsContinuation, ha, bits b, bits c,
      bits d, UInt8.le_iff_toNat_le, UInt8.lt_iff_toNat_lt]
    clear ha
    split_ifs <;> grind

inductive Lenient : Bool → Str → Prop where
  | nil : Lenient false []
  | sequence {e flag s} : IsSequence e → Lenient flag s → Lenient flag (e ++ s)
  | beyond {e flag s} : IsBeyond e → Lenient flag s → Lenient true (e ++ s)

theorem lenient_of_valid {s : Str} (h : WebSocket.isValidUtf8 s) : ∃ flag, Lenient flag s := by
  induction hn : s.length using Nat.strong_induction_on generalizing s with
  | _ n ih =>
    cases s with
    | nil => exact ⟨false, .nil⟩
    | cons a s =>
      obtain ⟨e, rest, heq, he, hrest⟩ := (frame_step a s).1 h
      obtain ⟨flag, hflag⟩ := ih rest.length (hn ▸ length_lt_of_front he heq) hrest rfl
      rw [heq]
      exact he.elim (fun he => ⟨flag, .sequence he hflag⟩) fun he => ⟨true, .beyond he hflag⟩

theorem Lenient.valid {flag s} (h : Lenient flag s) : WebSocket.isValidUtf8 s := by
  have hstep : ∀ {e s}, IsSequence e ∨ IsBeyond e → WebSocket.isValidUtf8 s →
      WebSocket.isValidUtf8 (e ++ s)
    | a :: t, s, he, hs => (frame_step a (t ++ s)).2 ⟨a :: t, s, rfl, he, hs⟩
  induction h with
  | nil => rfl
  | sequence he _ ih => exact hstep (.inl he) ih
  | beyond he _ ih => exact hstep (.inr he) ih

theorem lenient_of_wellFormed {s : Str} (h : WebSocket.WellFormed s) : Lenient false s := by
  obtain ⟨cs, rfl⟩ := wellFormed_iff.1 h
  induction cs with
  | nil => exact .nil
  | cons c cs ih => exact .sequence (isSequence_encode c) (ih (wellFormed_iff.2 ⟨cs, rfl⟩))

theorem IsBeyond.not_wellFormed : ∀ {e s}, IsBeyond e → ¬ WebSocket.WellFormed (e ++ s)
  | [a, b, c, d], s, h, hwell => by
    rw [cons_append, wellFormed_cons, exists_front fun _ => Or.inl] at hwell
    simp [IsSequence, IsBeyond] at h hwell
    omega

theorem Lenient.wellFormed_iff {flag s} (h : Lenient flag s) :
    WebSocket.WellFormed s ↔ flag = false := by
  induction h with
  | nil => exact iff_of_true ⟨[], rfl⟩ rfl
  | sequence he _ ih => rw [wellFormed_append he, ih]
  | beyond he _ _ => exact iff_of_false he.not_wellFormed (by decide)

/-! ## The validator of the strings -/

section Loop

variable {ε : Type} {buf : Str} {pos : Nat} {a : UInt8} {s : Str}

theorem read_of_drop (h : buf.drop pos = a :: s) :
    (read buf pos : Checked ε UInt8) = .ok a ∧ buf.drop (pos + 1) = s ∧
      pos + 1 + s.length = buf.length := by
  have hlength := congrArg length h
  rw [length_drop, length_cons] at hlength
  refine ⟨?_, ?_, by omega⟩
  · have hget := congrArg (·[0]?) h
    simp only [getElem?_drop, getElem?_cons_zero, Nat.add_zero] at hget
    simp [Checked.read, hget]
  · rw [← drop_drop, h, drop_one, tail_cons]

theorem digit (x : Nat) (b : UInt8) :
    (x <<< 6) ||| (b &&& 0x3F).toNat = x * 64 + b.toNat % 64 := by
  have hb := (bits b).2.2.2.2.2.2.2.2.2.2
  rw [hb, ← Nat.shiftLeft_add_eq_or_of_lt (Nat.mod_lt _ (by omega)), Nat.shiftLeft_eq]

def codePoint : Str → Nat → Option Nat
  | [], x => some x
  | b :: t, x => if 128 ≤ b.toNat ∧ b.toNat < 192 then codePoint t (x * 64 + b.toNat % 64) else none

theorem continuation_eq : ∀ {n pos s} (x : Nat), buf.drop pos = s → n ≤ s.length →
    (utf8Continuation buf n pos x : Checked ε (Option Nat)) = .ok (codePoint (s.take n) x)
  | 0, _, _, x, _, _ => by simp [utf8Continuation, codePoint]
  | n + 1, pos, b :: t, x, h, hn => by
    obtain ⟨hread, hdrop, -⟩ := read_of_drop (ε := ε) h
    rw [utf8Continuation, hread, ok_bind, digit]
    simp only [ne_eq, (bits b).2.2.2.1, ite_not, take_succ_cons, codePoint]
    split
    · exact continuation_eq _ hdrop (Nat.le_of_succ_le_succ hn)
    · rfl

theorem utf8Lead_eq (a : UInt8) : utf8Lead a =
    if 192 ≤ a.toNat ∧ a.toNat < 224 then some (1, a.toNat % 32)
    else if 224 ≤ a.toNat ∧ a.toNat < 240 then some (2, a.toNat % 16)
    else if 240 ≤ a.toNat ∧ a.toNat < 248 then some (3, a.toNat % 8) else none := by
  obtain ⟨h1, h2, h3, -, -, -, -, h5, h4, h3', -⟩ := bits a
  simp only [utf8Lead, h1, h2, h3, h3', h4, h5]

/-- The number of bytes behind the first byte of a sequence. -/
def width (a : UInt8) : Nat :=
  if a.toNat < 128 then 0 else if a.toNat < 224 then 1 else if a.toNat < 240 then 2 else 3

theorem length_of_isSequence : ∀ {t}, IsSequence (a :: t) → t.length = width a
  | [], h | [_], h | [_, _], h | [_, _, _], h => by
    simp only [IsSequence] at h
    simp only [width, length_cons, length_nil]
    split_ifs <;> omega

/-- A sequence off the front of a string is as long as its first byte says. -/
theorem exists_sequence_iff {v : Str → Prop} :
    (∃ e rest, a :: s = e ++ rest ∧ IsSequence e ∧ v rest) ↔
      width a ≤ s.length ∧ IsSequence (a :: s.take (width a)) ∧ v (s.drop (width a)) := by
  constructor
  · rintro ⟨_ | ⟨_, t⟩, rest, heq, he, hrest⟩
    · exact he.elim
    · rw [cons_append] at heq
      obtain ⟨rfl, rfl⟩ := cons.inj heq
      rw [← length_of_isSequence he, take_left, drop_left, length_append]
      exact ⟨Nat.le_add_right _ _, he, hrest⟩
  · rintro ⟨-, he, hrest⟩
    exact ⟨_, _, by rw [cons_append, take_append_drop], he, hrest⟩

theorem width_of_lead {n x} (h : utf8Lead a = some (n, x)) : width a = n := by
  rw [utf8Lead_eq] at h
  rw [width]
  split_ifs at h <;> cases h <;> split_ifs <;> omega

theorem first_of_isSequence : ∀ {t}, IsSequence (a :: t) →
    a.toNat < 128 ∨ 194 ≤ a.toNat ∧ a.toNat < 245
  | [], h => .inl h
  | [_], h => .inr ⟨h.1, Nat.lt_trans h.2.1 (by decide)⟩
  | [_, _], h => .inr ⟨Nat.le_trans (by decide) h.1, Nat.lt_trans h.2.1 (by decide)⟩
  | [_, _, _], h => .inr ⟨Nat.le_trans (by decide) h.1, h.2.1⟩

theorem not_isSequence_of_lead (hascii : ¬ a.toNat < 128) (h : utf8Lead a = none) {t} :
    ¬ IsSequence (a :: t) := by
  intro hsequence
  have hfirst := (first_of_isSequence hsequence).resolve_left hascii
  rw [utf8Lead_eq] at h
  split_ifs at h
  omega

/-- The continuation bytes give a code point that is not refused exactly when they make a
sequence with the first byte. -/
theorem isSequence_iff_decoded {n x} (h : utf8Lead a = some (n, x)) (hn : n ≤ s.length) :
    IsSequence (a :: s.take n) ↔
      ∃ v, codePoint (s.take n) x = some v ∧ utf8Refused n v = false := by
  rw [utf8Lead_eq] at h
  split_ifs at h with h1 h2 h3 <;> cases h
  · match s, hn with
    | b :: _, _ =>
      simp only [take_succ_cons, take_zero, IsSequence, IsContinuation, codePoint]
      split_ifs <;> simp [utf8Refused, *]
      omega
  · match s, hn with
    | b :: c :: _, _ =>
      simp only [take_succ_cons, take_zero, IsSequence, IsContinuation, codePoint]
      split_ifs <;> simp [utf8Refused, *]
      omega
  · match s, hn with
    | b :: c :: d :: _, _ =>
      simp only [take_succ_cons, take_zero, IsSequence, IsContinuation, codePoint]
      split_ifs <;> simp [utf8Refused, *]
      omega

/-- So does a round of this loop. -/
theorem string_round (h : buf.drop pos = a :: s) {rounds} :
    validUtf8Loop buf buf.length (rounds + 1) pos = (.ok true : Checked ε Bool) ↔
      ∃ e rest, a :: s = e ++ rest ∧ IsSequence e ∧
        validUtf8Loop buf buf.length rounds (buf.length - rest.length) =
          (.ok true : Checked ε Bool) := by
  obtain ⟨hread, hdrop, hlength⟩ := read_of_drop (ε := ε) h
  rw [exists_sequence_iff, validUtf8Loop, if_pos (by omega), hread, ok_bind]
  by_cases hascii : a.toNat < 128
  · rw [if_pos (UInt8.lt_iff_toNat_lt.2 hascii), width, if_pos hascii, take_zero, drop_zero,
      show buf.length - s.length = pos + 1 by omega]
    simp [IsSequence, hascii]
  rw [if_neg (fun hlt => hascii (UInt8.lt_iff_toNat_lt.1 hlt))]
  cases hlead : utf8Lead a with
  | none =>
    exact iff_of_false (fun h => nomatch h) fun h => not_isSequence_of_lead hascii hlead h.2.1
  | some lead =>
    obtain ⟨n, x⟩ := lead
    rw [width_of_lead hlead]
    dsimp only
    by_cases hn : n ≤ s.length
    · have hnext : buf.length - (s.drop n).length = pos + 1 + n := by
        rw [length_drop]
        omega
      rw [if_neg (by omega), continuation_eq x hdrop hn, ok_bind, isSequence_iff_decoded hlead hn,
        hnext, and_iff_right hn]
      cases codePoint (s.take n) x with
      | none => simp
      | some v => cases hrefused : utf8Refused n v <;> simp [hrefused]
    · rw [if_pos (by omega)]
      exact iff_of_false (fun h => nomatch h) fun h => hn h.1

theorem string_iff : ∀ {rounds pos}, (buf.drop pos).length ≤ rounds →
    (validUtf8Loop buf buf.length rounds pos = (.ok true : Checked ε Bool) ↔
      WebSocket.WellFormed (buf.drop pos))
  | 0, pos, h => by
    rw [length_eq_zero_iff.1 (Nat.le_zero.1 h)]
    exact iff_of_true rfl ⟨[], rfl⟩
  | rounds + 1, pos, h => by
    cases hs : buf.drop pos with
    | nil =>
      rw [validUtf8Loop, if_neg (not_lt.2 (drop_eq_nil_iff.1 hs))]
      exact iff_of_true rfl ⟨[], rfl⟩
    | cons a s =>
      rw [string_round hs, wellFormed_cons]
      refine exists_congr fun e => exists_congr fun rest => and_congr_right fun heq =>
        and_congr_right fun he => ?_
      have hlength := length_lt_of_front (.inl he) heq
      rw [← hs] at hlength
      have hdrop : buf.drop (buf.length - rest.length) = rest :=
        (suffix_iff_eq_drop.1 (IsSuffix.trans ⟨e, heq.symm⟩ (hs ▸ drop_suffix pos buf))).symm
      rw [string_iff (by rw [hdrop]; omega), hdrop]

theorem frameLoop_eq {data : Str} : ∀ {rounds i s}, data.drop i = s → s.length ≤ rounds →
    (frameLoop data rounds i : Checked ε Bool) = .ok (WebSocket.isValidUtf8 s)
  | 0, _, [], _, _ => by rw [frameLoop, WebSocket.isValidUtf8]
  | rounds + 1, i, [], h, _ => by
    rw [frameLoop, if_neg (not_lt.2 (drop_eq_nil_iff.1 h)), WebSocket.isValidUtf8]
  | rounds + 1, i, a :: s, h, hrounds => by
    obtain ⟨hread, hdrop, hlength⟩ := read_of_drop (ε := ε) h
    have ih : ∀ n, (frameLoop data rounds (i + 1 + n) : Checked ε Bool) =
        .ok (WebSocket.isValidUtf8 (s.drop n)) := fun n => by
      refine frameLoop_eq (by rw [← hdrop, drop_drop]) ?_
      rw [length_drop]
      exact le_trans (Nat.sub_le _ _) (Nat.le_of_succ_le_succ hrounds)
    have hget : ∀ n, data[i + 1 + n]? = s[n]? := fun n => by rw [← hdrop, getElem?_drop]
    rw [WebSocket.isValidUtf8.eq_def, frameLoop, if_pos (by omega), hread, ok_bind, ← hlength]
    simp only [Checked.read, show data[i + 1]? = _ from hget 0, show data[i + 2]? = _ from hget 1,
      show data[i + 3]? = _ from hget 2, show frameLoop data rounds (i + 1) = _ from ih 0,
      show frameLoop data rounds (i + 2) = _ from ih 1,
      show frameLoop data rounds (i + 3) = _ from ih 2,
      show frameLoop data rounds (i + 4) = _ from ih 3, WebSocket.isContinuation]
    clear ih hget hread h hdrop hrounds hlength
    by_cases h1 : a ≤ 0x7F
    · simp only [if_pos h1, drop_zero]
    by_cases h2 : a &&& 0xE0 = 0xC0
    · simp only [if_neg h1, if_pos h2]
      rcases s with _ | ⟨b, s⟩ <;> simp [Nat.add_assoc]
      grind
    by_cases h3 : a &&& 0xF0 = 0xE0
    · simp only [if_neg h1, if_neg h2, if_pos h3]
      rcases s with _ | ⟨b, _ | ⟨c, s⟩⟩ <;> simp [Nat.add_assoc]
      grind
    by_cases h4 : a &&& 0xF8 = 0xF0
    · simp only [if_neg h1, if_neg h2, if_neg h3, if_pos h4]
      rcases s with _ | ⟨b, _ | ⟨c, _ | ⟨d, s⟩⟩⟩ <;> simp [Nat.add_assoc]
      grind
    · simp only [if_neg h1, if_neg h2, if_neg h3, if_neg h4]

end Loop

/-! ## Both validators -/

/-- The first validator is that of RFC 3629, neither reads outside of the string, and they give the
same answer unless the string would be one of RFC 3629 but for code points beyond the last. -/
theorem validators_iff {ε : Type} (s : Str) :
    ((isValidUtf8 s 0 s.length = (.ok true : Checked ε Bool) ↔ WebSocket.WellFormed s) ∧
      ∃ answer, isValidUtf8 s 0 s.length = (.ok answer : Checked ε Bool) ∧
        frameLoop s s.length 0 = (.ok answer : Checked ε Bool)) ↔ ¬ Lenient true s := by
  have hstring : isValidUtf8 s 0 s.length = (.ok true : Checked ε Bool) ↔
      WebSocket.WellFormed s := by
    rw [isValidUtf8, Nat.zero_add]
    exact @string_iff ε s s.length 0 le_rfl
  have hframe : (∃ flag, Lenient flag s) ↔ WebSocket.isValidUtf8 s :=
    ⟨fun ⟨_, h⟩ => h.valid, lenient_of_valid⟩
  have hagree : (∃ answer, isValidUtf8 s 0 s.length = (.ok answer : Checked ε Bool) ∧
      frameLoop s s.length 0 = (.ok answer : Checked ε Bool)) ↔
      (WebSocket.WellFormed s ↔ ∃ flag, Lenient flag s) := by
    obtain ⟨answer, hanswer⟩ := @succeeds_validUtf8Loop ε s _ le_rfl s.length 0
    rw [← hstring, hframe, isValidUtf8, Nat.zero_add, hanswer, frameLoop_eq drop_zero le_rfl]
    cases answer <;> cases WebSocket.isValidUtf8 s <;> simp
  rw [hagree, and_iff_right hstring]
  constructor
  · exact fun h hbeyond => Bool.noConfusion (hbeyond.wellFormed_iff.1 (h.2 ⟨true, hbeyond⟩))
  · refine fun h => ⟨fun hwell => ⟨false, lenient_of_wellFormed hwell⟩, ?_⟩
    rintro ⟨flag, hflag⟩
    cases flag with
    | false => exact hflag.wellFormed_iff.2 rfl
    | true => exact absurd hflag h

/-- U+110000. -/
theorem beyond_accepted : Lenient true [0xF4, 0x90, 0x80, 0x80] ∧
    isValidUtf8 [0xF4, 0x90, 0x80, 0x80] 0 4 = (.ok false : Checked Empty Bool) ∧
    frameLoop [0xF4, 0x90, 0x80, 0x80] 4 0 = (.ok true : Checked Empty Bool) := by
  refine ⟨.beyond (e := [0xF4, 0x90, 0x80, 0x80]) ?_ .nil, rfl, rfl⟩
  simp [IsBeyond, IsContinuation]

end Mqtts.Utf8

import Mqtts.Lib.Checked
import Mqtts.Topic.Levels

/-!
# Length-prefixed strings and binary data

The helpers of `mqtt_string_utils`: the UTF-8 check, the check for control characters, and the two
functions that take a length-prefixed field from a window of the buffer. A window is a start and a
length, as the pointer and the length of the source. The checks read the buffer themselves, so they
can fault.
-/

namespace Mqtts.Protocol

open Checked

inductive StringStatus where
  | success
  | invalidUtf8
  | bufferTooShort
  | stringTooLong
  | invalidControlChars
  deriving DecidableEq

variable {ε : Type}

/-! ## UTF-8 -/

def utf8Lead (byte : UInt8) : Option (Nat × Nat) :=
  if byte &&& 0xE0 = 0xC0 then some (1, (byte &&& 0x1F).toNat)
  else if byte &&& 0xF0 = 0xE0 then some (2, (byte &&& 0x0F).toNat)
  else if byte &&& 0xF8 = 0xF0 then some (3, (byte &&& 0x07).toNat)
  else none

def utf8Continuation (buf : Str) : Nat → Nat → Nat → Checked ε (Option Nat)
  | 0, _, codePoint => .ok (some codePoint)
  | n + 1, pos, codePoint => do
    let byte ← read buf pos
    if byte &&& 0xC0 ≠ 0x80 then .ok none
    else utf8Continuation buf n (pos + 1) ((codePoint <<< 6) ||| (byte &&& 0x3F).toNat)

def utf8Refused (continuationBytes codePoint : Nat) : Bool :=
  (continuationBytes == 1 && decide (codePoint < 0x80)) ||
  (continuationBytes == 2 && decide (codePoint < 0x800)) ||
  (continuationBytes == 3 && decide (codePoint < 0x10000)) ||
  (decide (0xD800 ≤ codePoint) && decide (codePoint ≤ 0xDFFF)) || decide (codePoint > 0x10FFFF)

/-- The loop of `is_valid_utf8`; every round takes a byte, so `rounds` may be the number of
bytes. -/
def validUtf8Loop (buf : Str) (stop : Nat) : Nat → Nat → Checked ε Bool
  | 0, _ => .ok true
  | rounds + 1, pos =>
    if pos < stop then do
      let byte ← read buf pos
      if byte < 0x80 then validUtf8Loop buf stop rounds (pos + 1)
      else match utf8Lead byte with
        | none => .ok false
        | some (n, bits) =>
          if pos + 1 + n > stop then .ok false
          else do
            let decoded ← utf8Continuation buf n (pos + 1) bits
            match decoded with
            | none => .ok false
            | some codePoint =>
              if utf8Refused n codePoint then .ok false
              else validUtf8Loop buf stop rounds (pos + 1 + n)
    else .ok true

def isValidUtf8 (buf : Str) (start length : Nat) : Checked ε Bool :=
  validUtf8Loop buf (start + length) length start

/-! ## Control characters -/

/-- The loop of `has_control_characters` over the `left` bytes from `pos` on. -/
def controlLoop (buf : Str) : Nat → Nat → Checked ε Bool
  | 0, _ => .ok false
  | left + 1, pos => do
    let byte ← read buf pos
    if byte ≤ 0x1F then .ok true
    else if byte = 0x7F then .ok true
    else if byte = 0xC2 ∧ 0 < left then do
      let next ← read buf (pos + 1)
      if 0x80 ≤ next ∧ next ≤ 0x9F then .ok true else controlLoop buf left (pos + 1)
    else controlLoop buf left (pos + 1)

def hasControlCharacters (buf : Str) (start length : Nat) : Checked ε Bool :=
  controlLoop buf length start

def validateMqttString (buf : Str) (start length : Nat) : Checked ε StringStatus :=
  if length > 65535 then .ok .stringTooLong
  else if length = 0 then .ok .success
  else do
    let valid ← isValidUtf8 buf start length
    if !valid then .ok .invalidUtf8
    else do
      let control ← hasControlCharacters buf start length
      if control then .ok .invalidControlChars else .ok .success

/-! ## Fields -/

/-- `parse_string_impl`: the string and the number of bytes read. -/
def parseString (buf : Str) (base length : Nat) : Checked StringStatus (Str × Nat) := do
  if length < 2 then fail .bufferTooShort
  else
    let strLength ← read16 buf base
    if length < 2 + strLength then fail .bufferTooShort
    else
      let status ← validateMqttString buf (base + 2) strLength
      if status ≠ .success then fail status
      else
        let str ← assign buf (base + 2) strLength
        .ok (str, 2 + strLength)

def parseBinaryData (buf : Str) (base length : Nat) : Checked StringStatus (Str × Nat) := do
  if length < 2 then fail .bufferTooShort
  else
    let dataLength ← read16 buf base
    if length < 2 + dataLength then fail .bufferTooShort
    else
      let data ← assign buf (base + 2) dataLength
      .ok (data, 2 + dataLength)

/-! ## The checks stay in their bytes -/

variable {buf : Str}

theorem succeeds_utf8Continuation : ∀ {n pos} (bits : Nat), pos + n ≤ buf.length →
      Succeeds (utf8Continuation buf n pos bits : Checked ε (Option Nat))
  | 0, _, bits, _ => succeeds_ok (some bits)
  | n + 1, pos, bits, h => by
    refine (succeeds_read (by omega)).bind fun byte => ?_
    exact .ite (fun _ => succeeds_ok none) fun _ => succeeds_utf8Continuation _ (by omega)

/-- The check does not fault when its bytes lie in the buffer. -/
theorem succeeds_validUtf8Loop {stop} (hstop : stop ≤ buf.length) (rounds pos : Nat) :
    Succeeds (validUtf8Loop buf stop rounds pos : Checked ε Bool) := by
  induction rounds generalizing pos with
  | zero => exact succeeds_ok true
  | succ rounds ih =>
    refine .ite (fun hpos => ?_) fun _ => succeeds_ok true
    refine (succeeds_read (by omega)).bind fun byte => .ite (fun _ => ih _) fun _ => ?_
    cases utf8Lead byte with
    | none => exact succeeds_ok false
    | some lead =>
      obtain ⟨n, bits⟩ := lead
      refine .ite (fun _ => succeeds_ok false) fun hn => ?_
      refine (succeeds_utf8Continuation bits (by omega)).bind fun decoded => ?_
      cases decoded with
      | none => exact succeeds_ok false
      | some codePoint => exact .ite (fun _ => succeeds_ok false) fun _ => ih _

theorem succeeds_controlLoop (left pos : Nat) (h : pos + left ≤ buf.length) :
    Succeeds (controlLoop buf left pos : Checked ε Bool) := by
  induction left generalizing pos with
  | zero => exact succeeds_ok false
  | succ left ih =>
    refine (succeeds_read (by omega)).bind fun byte => ?_
    refine .ite (fun _ => succeeds_ok true) fun _ => .ite (fun _ => succeeds_ok true) ?_
    refine fun _ => .ite (fun hleft => ?_) fun _ => ih _ (by omega)
    refine (succeeds_read (by omega)).bind fun next => ?_
    exact .ite (fun _ => succeeds_ok true) fun _ => ih _ (by omega)

theorem succeeds_validateMqttString {start length} (h : start + length ≤ buf.length) :
    Succeeds (validateMqttString buf start length : Checked ε StringStatus) := by
  refine .ite (fun _ => succeeds_ok _) fun _ => .ite (fun _ => succeeds_ok _) fun _ => ?_
  refine (succeeds_validUtf8Loop h _ _).bind fun valid => ?_
  refine .ite (fun _ => succeeds_ok _) fun _ => ?_
  refine (succeeds_controlLoop _ _ h).bind fun control => ?_
  exact .ite (fun _ => succeeds_ok _) fun _ => succeeds_ok _

/-! ## Where a field ends -/

/-- The bytes pass `validate_mqtt_string`. -/
def acceptsText (buf : Str) (start length : Nat) : Bool :=
  validateMqttString buf start length == (.ok .success : Checked StringStatus StringStatus)

def scanField (buf : Str) (limit : Nat) (accepts : Nat → Nat → Bool) (pos : Nat) : Scan :=
  if pos + 2 ≤ limit ∧ pos + 2 + number16 buf pos ≤ limit ∧
      accepts (pos + 2) (number16 buf pos) then
    .ends (pos + 2 + number16 buf pos)
  else .stops

def scanText (buf : Str) (limit pos : Nat) : Scan := scanField buf limit (acceptsText buf) pos

def scanBinary (buf : Str) (limit pos : Nat) : Scan := scanField buf limit (fun _ _ => true) pos

section Fields

variable {base length : Nat} (h : base + length ≤ buf.length)
include h

/-- Where the function ends. -/
theorem follows_parseString : Follows buf.length (fun r => base + r.2) (parseString buf base length)
      (scanText buf (base + length) base) := by
  rw [scanText, scanField, parseString]
  rcases Nat.lt_or_ge length 2 with h2 | h2
  · rw [if_pos h2, if_neg (by omega)]
    exact follows_fail
  rw [if_neg (by omega), read16_eq (by omega), ok_bind]
  rcases Nat.lt_or_ge length (2 + number16 buf base) with hl | hl
  · rw [if_pos hl, if_neg (by omega)]
    exact follows_fail
  obtain ⟨status, hstatus⟩ :=
    @succeeds_validateMqttString StringStatus buf (base + 2) (number16 buf base) (by omega)
  have haccepts : acceptsText buf (base + 2) (number16 buf base) ↔ status = .success := by
    simp [acceptsText, hstatus]
  rw [if_neg (by omega), hstatus, ok_bind]
  by_cases hs : status = .success
  · rw [if_neg (by simpa using hs), if_pos ⟨by omega, by omega, haccepts.2 hs⟩]
    rw [assign_eq (by omega), ok_bind, Nat.add_assoc]
    exact follows_ok (by dsimp only; omega)
  · rw [if_pos hs, if_neg fun hc => hs (haccepts.1 hc.2.2)]
    exact follows_fail

theorem follows_parseBinaryData :
    Follows buf.length (fun r => base + r.2) (parseBinaryData buf base length)
      (scanBinary buf (base + length) base) := by
  rw [scanBinary, scanField, parseBinaryData]
  rcases Nat.lt_or_ge length 2 with h2 | h2
  · rw [if_pos h2, if_neg (by omega)]
    exact follows_fail
  rw [if_neg (by omega), read16_eq (by omega), ok_bind]
  rcases Nat.lt_or_ge length (2 + number16 buf base) with hl | hl
  · rw [if_pos hl, if_neg (by omega)]
    exact follows_fail
  rw [if_neg (by omega), if_pos ⟨by omega, by omega, rfl⟩]
  rw [assign_eq (by omega), ok_bind, Nat.add_assoc]
  exact follows_ok (by dsimp only; omega)

end Fields

end Mqtts.Protocol

import Mqtts.Protocol.Parser

/-!
# Where a property block ends

`parse_properties` checks the byte of each property type against its window and leaves the value to
the property. Strings and binary data are checked against the window. Values of a fixed width and
the subscription identifier are not checked at all, so they may stick out of the window, and out of
the buffer.
-/

namespace Mqtts.Protocol

open Checked Nat

inductive Shape where
  | fixed (width : Nat)
  | text
  | binary
  | textPair
  | varint

def PropertyType.shape : PropertyType → Shape
  | .payloadFormatIndicator | .requestProblemInformation | .requestResponseInformation
  | .maximumQoS | .retainAvailable | .wildcardSubscriptionAvailable
  | .subscriptionIdentifierAvailable | .sharedSubscriptionAvailable => .fixed 1
  | .serverKeepAlive | .receiveMaximum | .topicAliasMaximum | .topicAlias => .fixed 2
  | .messageExpiryInterval | .sessionExpiryInterval | .willDelayInterval
  | .maximumPacketSize => .fixed 4
  | .contentType | .responseTopic | .assignedClientIdentifier | .authenticationMethod
  | .responseInformation | .serverReference | .reasonString => .text
  | .correlationData | .authenticationData => .binary
  | .userProperty => .textPair
  | .subscriptionIdentifier => .varint

def scanValue (buf : Str) (limit pos : Nat) : Shape → Scan
  | .fixed width => if pos + width ≤ buf.length then .ends (pos + width) else .cut
  | .text => scanText buf limit pos
  | .binary => scanBinary buf limit pos
  | .textPair => (scanText buf limit pos).andThen (scanText buf limit)
  | .varint =>
    match (buf.drop pos).findIdx? (fun byte => byte &&& 0x80 == 0) with
    | some k => .ends (pos + k + 1)
    | none => .cut

def scanBlock (buf : Str) (limit stop : Nat) : Nat → Bool → Nat → Scan
  | 0, _, pos => .ends pos
  | rounds + 1, aliased, pos =>
    if pos < stop then
      if pos ≥ limit then .stops
      else match PropertyType.ofByte (byteAt buf pos) with
        | none => .stops
        | some type =>
          if type = .topicAlias ∧ aliased then .stops
          else (scanValue buf limit (pos + 1) type.shape).andThen
            (scanBlock buf limit stop rounds (aliased || type == .topicAlias))
    else .ends pos

/-- The walk over a block by the widths of its values: it ends, stops at something that the parser
refuses, or is cut by the end of the buffer. -/
def scanProperties (buf : Str) (limit pos : Nat) : Scan :=
  match parseRemainingLength buf pos (limit - pos) with
  | .ok (length, bytesRead) =>
    scanBlock buf limit (pos + bytesRead + length) length false (pos + bytesRead)
  | .error _ => .stops

variable {buf : Str}

/-! ## Variable-length integers -/

theorem remainingLengthLoop_spec {base length} (h : base + length ≤ buf.length) :
    ∀ left bytesRead value multiplier, bytesRead ≤ length →
      ¬ Faults (remainingLengthLoop buf base length left bytesRead value multiplier) ∧
      ∀ r, remainingLengthLoop buf base length left bytesRead value multiplier = .ok r →
        bytesRead < r.2 ∧ r.2 ≤ length
  | 0, bytesRead, value, multiplier, hle => by
    rw [remainingLengthLoop]
    split <;> exact ⟨not_faults_fail _, fun r hr => by simp [fail] at hr⟩
  | left + 1, bytesRead, value, multiplier, hle => by
    rw [remainingLengthLoop]
    split
    · exact ⟨not_faults_fail _, fun r hr => by simp [fail] at hr⟩
    rw [read_eq (by omega), ok_bind]
    split
    · exact ⟨not_faults_fail _, fun r hr => by simp [fail] at hr⟩
    split
    · refine ⟨not_faults_ok _, fun r hr => ?_⟩
      cases hr
      omega
    · have ih := remainingLengthLoop_spec h left (bytesRead + 1)
        (value + (byteAt buf (base + bytesRead) &&& 0x7F).toNat * multiplier)
        (multiplier * 128) (by omega)
      refine ⟨ih.1, fun r hr => ?_⟩
      have := ih.2 r hr
      omega

theorem parseRemainingLength_spec {base length} (h : base + length ≤ buf.length) :
    ¬ Faults (parseRemainingLength buf base length) ∧
      ∀ r, parseRemainingLength buf base length = .ok r → 0 < r.2 ∧ r.2 ≤ length :=
  remainingLengthLoop_spec h 4 0 0 1 (zero_le _)

/-! ## Values -/

theorem scanField_le {limit pos p} {accepts : Nat → Nat → Bool}
    (h : scanField buf limit accepts pos = .ends p) : p ≤ limit := by
  rw [scanField] at h
  split at h
  · obtain rfl := Scan.ends.inj h
    omega
  · cases h

section Values

variable {base length bytesRead : Nat}

theorem follows_byteProperty (set : UInt8 → Properties) :
    Follows buf.length (fun r => base + r.2) (byteProperty buf base bytesRead set)
      (scanValue buf (base + length) (base + bytesRead) (.fixed 1)) := by
  rw [byteProperty, scanValue]
  rcases lt_or_ge (base + bytesRead) buf.length with h | h
  · rw [read_eq h, ok_bind, if_pos (by omega)]
    exact follows_ok (by dsimp only; omega)
  · rw [read_of_le h, if_neg (by omega)]
    trivial

theorem follows_shortProperty (set : Nat → Properties) :
    Follows buf.length (fun r => base + r.2) (shortProperty buf base bytesRead set)
      (scanValue buf (base + length) (base + bytesRead) (.fixed 2)) := by
  rw [shortProperty, scanValue]
  rcases lt_or_ge buf.length (base + bytesRead + 2) with h | h
  · obtain ⟨f, hf⟩ := @read16_faults Status buf (base + bytesRead) h
    rw [hf, if_neg (by omega)]
    trivial
  · rw [read16_eq h, ok_bind, if_pos h]
    exact follows_ok (by dsimp only; omega)

theorem follows_longProperty (set : Nat → Properties) :
    Follows buf.length (fun r => base + r.2) (longProperty buf base bytesRead set)
      (scanValue buf (base + length) (base + bytesRead) (.fixed 4)) := by
  rw [longProperty, scanValue]
  rcases lt_or_ge buf.length (base + bytesRead + 4) with h | h
  · obtain ⟨f, hf⟩ := @read32_faults Status buf (base + bytesRead) h
    rw [hf, if_neg (by omega)]
    trivial
  · obtain ⟨v, hv⟩ := @succeeds_read32 Status buf (base + bytesRead) h
    rw [hv, ok_bind, if_pos h]
    exact follows_ok (by dsimp only; omega)

theorem follows_parseMqttString {pos stop} (hpos : pos ≤ stop) (hstop : stop ≤ buf.length) :
    Follows buf.length (fun r => pos + r.2) (parseMqttString buf pos (stop - pos))
      (scanText buf stop pos) := by
  have h := @follows_parseString buf pos (stop - pos) (by omega)
  rw [Nat.add_sub_cancel' hpos] at h
  exact h.mapError mapStringUtilError

theorem follows_parseBinary {pos stop} (hpos : pos ≤ stop) (hstop : stop ≤ buf.length) :
    Follows buf.length (fun r => pos + r.2) (parseBinary buf pos (stop - pos))
      (scanBinary buf stop pos) := by
  have h := @follows_parseBinaryData buf pos (stop - pos) (by omega)
  rw [Nat.add_sub_cancel' hpos] at h
  exact h.mapError mapStringUtilError

section Window

variable (hwindow : base + length ≤ buf.length) (hread : bytesRead ≤ length)
include hwindow hread

theorem follows_textProperty (set : Str → Properties) :
    Follows buf.length (fun r => base + r.2) (textProperty buf base length bytesRead set)
      (scanValue buf (base + length) (base + bytesRead) .text) := by
  have h := @follows_parseMqttString buf (base + bytesRead) (base + length) (by omega) hwindow
  rw [Nat.add_sub_add_left] at h
  rw [textProperty, sub_eq hread, ok_bind]
  exact Follows.map h fun a => (add_assoc ..).symm

theorem follows_binaryProperty (set : Str → Properties) :
    Follows buf.length (fun r => base + r.2) (binaryProperty buf base length bytesRead set)
      (scanValue buf (base + length) (base + bytesRead) .binary) := by
  have h := @follows_parseBinary buf (base + bytesRead) (base + length) (by omega) hwindow
  rw [Nat.add_sub_add_left] at h
  rw [binaryProperty, sub_eq hread, ok_bind]
  exact Follows.map h fun a => (add_assoc ..).symm

theorem follows_userProperty (p : Properties) : Follows buf.length (fun r => base + r.2)
      (parseProperty buf base length p bytesRead .userProperty)
      (scanValue buf (base + length) (base + bytesRead) .textPair) := by
  have hkey := @follows_parseMqttString buf (base + bytesRead) (base + length) (by omega) hwindow
  rw [Nat.add_sub_add_left] at hkey
  rw [parseProperty, sub_eq hread, ok_bind]
  refine hkey.bind fun key _ hscan _ => ?_
  obtain ⟨key, localRead⟩ := key
  have hle : base + bytesRead + localRead ≤ base + length := scanField_le hscan
  have hvalue := @follows_parseMqttString buf (base + (bytesRead + localRead)) (base + length)
    (by omega) hwindow
  rw [Nat.add_sub_add_left] at hvalue
  dsimp only
  rw [sub_eq (by omega), ok_bind, add_assoc base]
  exact Follows.map hvalue fun a => (add_assoc ..).symm

end Window

theorem subscriptionIdentifierLoop_follows (rounds : Nat) :
    ∀ bytesRead value, buf.length < base + bytesRead + rounds →
      Follows buf.length (fun r => base + r.2)
        (subscriptionIdentifierLoop buf base rounds bytesRead value)
        (scanValue buf (base + length) (base + bytesRead) .varint) := by
  induction rounds with
  | zero =>
    intro bytesRead value h
    have hnil : buf.drop (base + bytesRead) = [] := List.drop_eq_nil_of_le (by omega)
    simp only [scanValue, hnil, List.findIdx?_nil]
    trivial
  | succ rounds ih =>
    intro bytesRead value h
    rw [subscriptionIdentifierLoop]
    rcases lt_or_ge (base + bytesRead) buf.length with hlt | hge
    · have hdrop : buf.drop (base + bytesRead) =
          byteAt buf (base + bytesRead) :: buf.drop (base + (bytesRead + 1)) := by
        rw [List.drop_eq_getElem_cons hlt]
        simp [byteAt, hlt, add_assoc]
      rw [read_eq hlt, ok_bind]
      by_cases hhigh : byteAt buf (base + bytesRead) &&& 0x80 = 0
      · rw [if_pos hhigh]
        simp only [scanValue, hdrop, List.findIdx?_cons, hhigh, beq_self_eq_true, if_true]
        exact follows_ok (by dsimp only; omega)
      · have ih' := ih (bytesRead + 1)
          ((value * 128) % 2 ^ 32 + (byteAt buf (base + bytesRead) &&& 0x7F).toNat) (by omega)
        rw [if_neg hhigh]
        simp only [scanValue, hdrop, List.findIdx?_cons, beq_eq_false_iff_ne.2 hhigh,
          Bool.false_eq_true, if_false] at ih' ⊢
        cases hfind : (buf.drop (base + (bytesRead + 1))).findIdx? (fun b => b &&& 0x80 == 0) with
        | none => simpa only [hfind, Option.map_none] using ih'
        | some k =>
          simp only [hfind, Option.map_some] at ih' ⊢
          rwa [show base + bytesRead + (k + 1) + 1 = base + (bytesRead + 1) + k + 1 by omega]
    · have hnil : buf.drop (base + bytesRead) = [] := List.drop_eq_nil_of_le hge
      rw [read_of_le hge]
      simp only [scanValue, hnil, List.findIdx?_nil]
      trivial

theorem follows_parseProperty (hwindow : base + length ≤ buf.length) (hread : bytesRead ≤ length)
    {p} {type : PropertyType} (halias : ¬ (type = .topicAlias ∧ p.hasTopicAlias)) :
    Follows buf.length (fun r => base + r.2) (parseProperty buf base length p bytesRead type)
      (scanValue buf (base + length) (base + bytesRead) type.shape) := by
  cases type
  case subscriptionIdentifier =>
    exact (subscriptionIdentifierLoop_follows _ bytesRead 0 (by omega)).map (fun _ => rfl)
  case userProperty => exact follows_userProperty hwindow hread p
  case topicAlias =>
    rw [parseProperty, if_neg fun h => halias ⟨rfl, h⟩]
    exact follows_shortProperty _
  all_goals
    simp only [parseProperty, PropertyType.shape]
    first
    | exact follows_byteProperty _
    | exact follows_shortProperty _
    | exact follows_longProperty _
    | exact follows_textProperty hwindow hread _
    | exact follows_binaryProperty hwindow hread _

theorem hasTopicAlias_parseProperty {p} {type : PropertyType} {r}
    (h : parseProperty buf base length p bytesRead type = .ok r) :
    r.1.hasTopicAlias = (p.hasTopicAlias || type == .topicAlias) := by
  have hlast : ∀ {α : Type} {x : Checked Status α} {set : α → Properties} {next : α → Nat},
      (x >>= fun a => (.ok (set a, next a) : Checked Status (Properties × Nat))) = .ok r →
        ∃ a, r.1 = set a := by
    intro α x set next hx
    obtain ⟨a, -, ha⟩ := exists_of_bind_eq_ok hx
    exact ⟨a, by rw [← Except.ok.inj ha]⟩
  cases type
  case userProperty =>
    obtain ⟨_, -, h⟩ := exists_of_bind_eq_ok h
    obtain ⟨_, -, h⟩ := exists_of_bind_eq_ok h
    obtain ⟨_, -, h⟩ := exists_of_bind_eq_ok h
    obtain ⟨a, ha⟩ := hlast h
    simp [ha]
  case topicAlias =>
    rw [parseProperty] at h
    split at h
    · cases h
    · obtain ⟨a, ha⟩ := hlast h
      simp [ha]
  case contentType | responseTopic | correlationData | assignedClientIdentifier
      | authenticationMethod | authenticationData | responseInformation | serverReference
      | reasonString =>
    obtain ⟨_, -, h⟩ := exists_of_bind_eq_ok h
    obtain ⟨a, ha⟩ := hlast h
    simp [ha]
  all_goals
    obtain ⟨a, ha⟩ := hlast h
    simp [ha]

/-! ## Blocks -/

theorem follows_propertiesLoop (hwindow : base + length ≤ buf.length) {propertiesEnd}
    (rounds : Nat) :
    ∀ p bytesRead, base + bytesRead ≤ buf.length → Follows buf.length (fun r => base + r.2)
        (propertiesLoop buf base length propertiesEnd rounds p bytesRead)
        (scanBlock buf (base + length) (base + propertiesEnd) rounds p.hasTopicAlias
          (base + bytesRead)) := by
  induction rounds with
  | zero => exact fun p bytesRead h => follows_ok h
  | succ rounds ih =>
    intro p bytesRead h
    rw [propertiesLoop, scanBlock]
    simp only [Nat.add_lt_add_iff_left, ge_iff_le, Nat.add_le_add_iff_left]
    refine .ite (fun _ => .ite (fun _ => follows_fail) fun hlt => ?_) fun _ => follows_ok h
    rw [read_eq (by omega), ok_bind]
    cases PropertyType.ofByte (byteAt buf (base + bytesRead)) with
    | none => exact follows_fail
    | some type =>
      dsimp only
      by_cases halias : type = .topicAlias ∧ p.hasTopicAlias
      · obtain ⟨rfl, hp⟩ := halias
        rw [if_pos ⟨rfl, hp⟩, parseProperty, if_pos hp]
        exact follows_fail
      · rw [if_neg halias]
        refine (follows_parseProperty hwindow (by omega) halias).bind fun r hr _ hle => ?_
        have hnext := ih r.1 r.2 hle
        rwa [hasTopicAlias_parseProperty hr] at hnext

end Values

/-- The parser does the same. -/
theorem follows_parseProperties {pos stop} (hpos : pos ≤ stop) (hstop : stop ≤ buf.length) :
    Follows buf.length (fun r => pos + r.2) (parseProperties buf pos (stop - pos))
      (scanProperties buf stop pos) := by
  obtain ⟨hfault, hok⟩ := @parseRemainingLength_spec buf pos (stop - pos) (by omega)
  rw [parseProperties, scanProperties]
  cases hlength : parseRemainingLength buf pos (stop - pos) with
  | error e =>
    rcases e with e | f
    · trivial
    · exact absurd ⟨f, hlength⟩ hfault
  | ok r =>
    obtain ⟨propertiesLength, bytesRead⟩ := r
    have hle := (hok _ hlength).2
    have h := @follows_propertiesLoop buf pos (stop - pos) (by omega)
      (bytesRead + propertiesLength) propertiesLength {} bytesRead (by dsimp only at hle; omega)
    rw [Nat.add_sub_cancel' hpos, ← Nat.add_assoc] at h
    exact h

end Mqtts.Protocol

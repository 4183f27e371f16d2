import Mqtts.Protocol.PropertyScan

/-!
# Which inputs make the parser unsafe

`parse_packet` is meant to be memory safe on any input. It is not: a property value of a fixed width
or a subscription identifier at the end of the buffer is read past the end, three lengths are
computed by a subtraction that can go below zero, and ten parsers write to the packet they begin
although the allocator may have refused it. With memory such a place is one line for most packet
types, the place of the property block; CONNECT has two blocks, and the block of a PUBLISH stands
after its topic. Without memory only the type and the length of the packet matter.
-/

namespace Mqtts.Protocol

open Checked Nat

/-! ## The packets -/

section Scans

variable (hint : UInt8) (buf : Str) (remainingLength headerSize : Nat)

/-- The property blocks of a CONNECT of version 5: that of the packet, and that of the will
after the client identifier. -/
def scanConnect : Scan :=
  if buf.length < 10 then .stops
  else (scanText buf buf.length headerSize).andThen fun pos =>
    if pos + 4 > buf.length ∨ byteAt buf (pos + 1) &&& 0x01 ≠ 0 ∨ byteAt buf pos ≠ 5 then .stops
    else (scanProperties buf buf.length (pos + 4)).andThen fun idPos =>
      (scanText buf buf.length idPos).andThen fun willPos =>
        if (connectFlagsOf (byteAt buf (pos + 1))).willFlag then
          scanProperties buf buf.length willPos
        else .stops

def scanPublish : Scan :=
  (scanText buf buf.length headerSize).andThen fun pos =>
    let withId := decide (0 < publishQos (byteAt buf 0))
    if withId ∧ pos + 2 > buf.length then .stops
    else
      let blockPos := if withId then pos + 2 else pos
      (if isLegacy hint then .ends blockPos else scanProperties buf buf.length blockPos).andThen
        fun payloadPos => if headerSize + remainingLength < payloadPos then .cut else .stops

def scanFilters : Scan :=
  if isLegacy hint ∨ buf.length < 5 ∨ headerSize + 2 > buf.length then .stops
  else if remainingLength < 2 then .cut
  else scanProperties buf (headerSize + remainingLength) (headerSize + 2)

def scanConnack : Scan :=
  if isLegacy hint ∨ buf.length < 4 ∨ headerSize + 2 > buf.length ∨
      byteAt buf headerSize &&& 0xFE ≠ 0 ∨ remainingLength = 2 then .stops
  else if remainingLength < 2 then .cut
  else scanProperties buf (headerSize + remainingLength) (headerSize + 2)

def scanTail (offset : Nat) : Scan :=
  if isLegacy hint ∨ remainingLength ≤ offset then .stops
  else scanProperties buf (headerSize + remainingLength) (headerSize + offset)

def scanTyped : PacketType → Scan
  | .connect => scanConnect buf headerSize
  | .connack => scanConnack hint buf remainingLength headerSize
  | .publish => scanPublish hint buf remainingLength headerSize
  | .subscribe | .unsubscribe => scanFilters hint buf remainingLength headerSize
  | .puback | .pubrec | .pubrel | .pubcomp => scanTail hint buf remainingLength headerSize 3
  | .suback | .unsuback => scanTail hint buf remainingLength headerSize 2
  | .disconnect | .auth => scanTail hint buf remainingLength headerSize 1
  | .pingreq | .pingresp => .stops

/-- The walk when there is no memory for the packet. It is cut in the parsers that do not look at
the pointer, behind the check of the length that they begin with. -/
def scanUnallocated : PacketType → Scan
  | .connack | .puback | .pubrec | .pubrel | .pubcomp | .unsuback =>
    if buf.length < 4 then .stops else .cut
  | .suback => if buf.length < 5 then .stops else .cut
  | .pingreq | .pingresp | .disconnect => .cut
  | .connect | .publish | .subscribe | .unsubscribe | .auth => .stops

end Scans

/-- Whether the parser comes to such a place, for an input and for whether there is memory for the
packet. -/
def scanPacket (memory : Bool) (hint : UInt8) (buf : Str) : Scan :=
  match fixedHeader buf with
  | .error _ => .stops
  | .ok (remainingLength, headerSize) =>
    if buf.length < headerSize + remainingLength then .stops
    else match PacketType.ofByte (byteAt buf 0) with
      | none => .stops
      | some type =>
        if type.flags.any (fun flags => byteAt buf 0 &&& 0x0F != flags) then .stops
        else if memory then scanTyped hint buf remainingLength headerSize type
        else scanUnallocated buf type

/-! ## Steps -/

variable {buf : Str} {hint : UInt8}

theorem fixedHeader_spec (h : 0 < buf.length) : ¬ Faults (fixedHeader buf) ∧
      ∀ r, fixedHeader buf = .ok r → 2 ≤ r.2 ∧ r.2 ≤ buf.length := by
  obtain ⟨hfault, hok⟩ := @parseRemainingLength_spec buf 1 (buf.length - 1) (by omega)
  rw [fixedHeader, sub_eq h, ok_bind]
  cases hlength : parseRemainingLength buf 1 (buf.length - 1) with
  | error e =>
    rcases e with e | f
    · exact ⟨by simp [mapError, Faults], fun r hr => by simp [mapError] at hr⟩
    · exact absurd ⟨f, hlength⟩ hfault
  | ok r =>
    have hle := hok r hlength
    refine ⟨not_faults_ok _, fun r' hr' => ?_⟩
    cases hr'
    omega

theorem fixedHeader_ne_ok (h : buf.length < 2) (r : Nat × Nat) : fixedHeader buf ≠ .ok r := by
  intro hr
  rcases Nat.eq_zero_or_pos buf.length with h0 | hpos
  · rw [fixedHeader, h0] at hr
    cases hr
  · have hsize := (fixedHeader_spec hpos).2 r hr
    omega

section Steps

variable {pos stop : Nat} (hpos : pos ≤ stop) (hstop : stop ≤ buf.length)
include hpos hstop

theorem follows_stringFrom (error : Status → Status) :
    Follows buf.length (·.2) (stringFrom buf pos stop error) (scanText buf stop pos) := by
  rw [stringFrom, sub_eq hpos, ok_bind]
  exact ((follows_parseMqttString hpos hstop).mapError error).map fun _ => rfl

theorem follows_propertiesFrom (error : Status → Status) :
    Follows buf.length (·.2) (propertiesFrom buf pos stop error) (scanProperties buf stop pos) := by
  rw [propertiesFrom, sub_eq hpos, ok_bind]
  exact ((follows_parseProperties hpos hstop).mapError error).map fun _ => rfl

end Steps

variable {pos stop payloadEnd remainingLength headerSize : Nat} {error : Status → Status} {α : Type}
  {c : Bool}

theorem not_faults_stringFrom (hpos : pos ≤ stop) (hstop : stop ≤ buf.length)
    (error : Status → Status) : ¬ Faults (stringFrom buf pos stop error) := by
  rw [(follows_stringFrom hpos hstop error).faults_iff, scanText, scanField]
  split <;> simp

theorem le_of_stringFrom {r} (hpos : pos ≤ stop) (hstop : stop ≤ buf.length)
    (h : stringFrom buf pos stop error = .ok r) : r.2 ≤ stop := by
  have hf := follows_stringFrom hpos hstop error
  rw [h] at hf
  cases hs : scanText buf stop pos with
  | ends p =>
    rw [hs] at hf
    rw [show r.2 = p from hf.1]
    exact scanField_le hs
  | stops | cut => rw [hs] at hf; exact hf.elim

theorem le_stringFrom {r} (h : stringFrom buf pos stop error = .ok r) : pos ≤ r.2 := by
  obtain ⟨window, -, h⟩ := exists_of_bind_eq_ok h
  obtain ⟨value, -, h⟩ := exists_of_bind_eq_ok h
  cases h
  exact le_add_right pos _

theorem le_propertiesFrom {r} (h : propertiesFrom buf pos stop error = .ok r) : pos ≤ r.2 := by
  obtain ⟨window, -, h⟩ := exists_of_bind_eq_ok h
  obtain ⟨value, -, h⟩ := exists_of_bind_eq_ok h
  cases h
  exact le_add_right pos _

section

variable (h : payloadEnd ≤ buf.length)
include h

theorem faults_reasonAndProperties :
    Faults (reasonAndProperties buf pos payloadEnd) ↔
      pos + 1 < payloadEnd ∧ scanProperties buf payloadEnd (pos + 1) = .cut := by
  rw [reasonAndProperties]
  split
  · rw [read_eq (by omega), ok_bind]
    by_cases h2 : pos + 1 < payloadEnd
    · rw [if_pos h2]
      have hblock := follows_propertiesFrom (le_of_lt h2) h id
      simp only [faults_bind_ok, hblock.faults_iff, h2, true_and]
    · simp [h2]
  · simp only [not_faults_ok, false_iff]
    omega

theorem not_faults_reasonCodesLoop (rounds : Nat) : ∀ pos codes,
      ¬ Faults (reasonCodesLoop buf payloadEnd rounds pos codes) := by
  induction rounds with
  | zero => exact fun _ _ => not_faults_ok _
  | succ rounds ih =>
    intro pos codes
    rw [reasonCodesLoop]
    split
    · rw [read_eq (by omega), ok_bind]
      exact ih _ _
    · exact not_faults_ok _

theorem not_faults_subscriptionsLoop {legacy} (rounds : Nat) :
    ∀ pos subscriptions,
      ¬ Faults (subscriptionsLoop buf legacy payloadEnd rounds pos subscriptions) := by
  induction rounds with
  | zero => exact fun _ _ => not_faults_ok _
  | succ rounds ih =>
    intro pos subscriptions
    rw [subscriptionsLoop]
    split
    · refine not_faults_bind (not_faults_stringFrom (by omega) h _) fun r hr => ?_
      obtain ⟨topicFilter, pos'⟩ := r
      rw [faults_refuse]
      rintro ⟨hlt, hfaults⟩
      rw [read_eq (by omega), ok_bind] at hfaults
      cases hoptions : decodeSubscriptionOptions (byteAt buf pos') legacy with
      | none => simp [hoptions] at hfaults
      | some options =>
        rw [hoptions] at hfaults
        exact ih _ _ hfaults
    · exact not_faults_ok _

theorem not_faults_topicFiltersLoop (rounds : Nat) :
    ∀ pos topicFilters, ¬ Faults (topicFiltersLoop buf payloadEnd rounds pos topicFilters) := by
  induction rounds with
  | zero => exact fun _ _ => not_faults_ok _
  | succ rounds ih =>
    intro pos topicFilters
    rw [topicFiltersLoop]
    split
    · exact not_faults_bind (not_faults_stringFrom (by omega) h _) fun r _ => ih _ _
    · exact not_faults_ok _

end

@[simp] theorem optional_false {absent : α} {field} :
    optional false pos absent field = .ok (absent, pos) := rfl

theorem faults_optional_propertiesFrom (hpos : pos ≤ stop) (hstop : stop ≤ buf.length) :
    Faults (optional c pos {} (propertiesFrom buf pos stop error)) ↔
      c ∧ scanProperties buf stop pos = .cut := by
  cases c
  · simp [optional]
  · simp [optional, (follows_propertiesFrom hpos hstop error).faults_iff]

theorem faults_codesBody {withProperties packetId} (h : payloadEnd ≤ buf.length) :
    Faults (codesBody withProperties buf packetId pos payloadEnd) ↔
      withProperties ∧ pos < payloadEnd ∧ scanProperties buf payloadEnd pos = .cut := by
  rw [codesBody, faults_bind_of_not_faults]
  · by_cases hlt : pos < payloadEnd
    · rw [faults_optional_propertiesFrom (le_of_lt hlt) h]
      simp [hlt]
    · simp [hlt, optional]
  · intro r _
    refine not_faults_bind (not_faults_reasonCodesLoop h _ _ _) fun codes _ => ?_
    rw [faults_refuse]
    simp

/-! ## Packets with one block near the header -/

theorem scanTail_eq_cut {offset} : scanTail hint buf remainingLength headerSize offset = .cut ↔
      isLegacy hint = false ∧ offset < remainingLength ∧
        scanProperties buf (headerSize + remainingLength) (headerSize + offset) = .cut := by
  rw [scanTail]
  split
  case isTrue h =>
    simp only [reduceCtorEq, false_iff]
    rintro ⟨hlegacy, hlt, -⟩
    rcases h with h | h
    · simp [hlegacy] at h
    · omega
  case isFalse h =>
    have hlegacy : isLegacy hint = false := by simpa using fun h' => h (.inl h')
    have hlt : offset < remainingLength := Nat.lt_of_not_le fun h' => h (.inr h')
    simp [hlegacy, hlt]

section Packets

variable {remainingLength headerSize : Nat}
  (hheader : fixedHeader buf = .ok (remainingLength, headerSize))
  (hsize : 2 ≤ headerSize) (hfits : headerSize + remainingLength ≤ buf.length)
include hheader hsize hfits

theorem faults_parseAckStrict : Faults (parseAckStrict true hint buf) ↔
      scanTail hint buf remainingLength headerSize 3 = .cut := by
  rw [parseAckStrict, faults_refuse, beginPacket_memory, ok_bind, hheader, ok_bind, faults_refuse,
    faults_refuse, scanTail_eq_cut]
  rcases lt_or_ge remainingLength 2 with h2 | h2
  · simp only [not_lt]
    omega
  · rw [read16_eq (by omega), ok_bind]
    cases isLegacy hint
    · rw [if_neg (by simp), faults_bind_of_not_faults fun _ _ => not_faults_ok _,
        faults_reasonAndProperties hfits]
      exact ⟨fun h => ⟨rfl, by omega, h.2.2.2.2⟩,
        fun h => ⟨by omega, by omega, by omega, by omega, h.2.2⟩⟩
    · rw [if_pos rfl, faults_refuse]
      simp

theorem faults_parseAckLoose : Faults (parseAckLoose true hint buf) ↔
      scanTail hint buf remainingLength headerSize 3 = .cut := by
  rw [parseAckLoose, faults_refuse, beginPacket_memory, ok_bind, hheader, ok_bind, faults_refuse,
    faults_refuse, scanTail_eq_cut]
  rcases lt_or_ge buf.length (headerSize + 2) with h2 | h2
  · simp only [not_lt]
    omega
  · rw [read16_eq h2, ok_bind]
    cases isLegacy hint
    · rw [if_neg (by simp), sub_eq (by omega), ok_bind,
        show headerSize + 2 + remainingLength - 2 = headerSize + remainingLength by omega,
        faults_bind_of_not_faults fun _ _ => not_faults_ok _, faults_reasonAndProperties hfits]
      exact ⟨fun h => ⟨rfl, by omega, h.2.2.2.2⟩,
        fun h => ⟨by omega, by omega, by omega, by omega, h.2.2⟩⟩
    · rw [if_pos rfl, faults_refuse]
      simp

omit hsize in
theorem faults_codesHeader_bind {α : Type} {minimum} {f : (Nat × Nat) × Nat → Checked Status α} :
    Faults (codesHeader true minimum buf >>= f) ↔ minimum ≤ buf.length ∧
      headerSize + 2 ≤ buf.length ∧
        Faults (f ((number16 buf headerSize, remainingLength), headerSize + 2)) := by
  rw [codesHeader, bind_assoc, faults_refuse, beginPacket_memory, ok_bind, hheader, ok_bind,
    bind_assoc, faults_refuse, bind_assoc, faults_refuse]
  rcases lt_or_ge buf.length (headerSize + 2) with h2 | h2
  · simp [not_le.2 h2]
  · rw [read16_eq h2, ok_bind, ok_bind]
    simp only [not_lt]
    exact ⟨fun h => ⟨h.1, h.2.2.1, h.2.2.2⟩, fun h => ⟨h.1, hfits, h.2.1, h.2.2⟩⟩

theorem faults_parseSuback : Faults (parseSuback true hint buf) ↔
      scanTail hint buf remainingLength headerSize 2 = .cut := by
  rw [parseSuback, faults_codesHeader_bind hheader hfits]
  dsimp only
  rw [sub_eq (by omega), ok_bind,
    show headerSize + 2 + remainingLength - 2 = headerSize + remainingLength by omega,
    faults_bind_of_not_faults fun _ _ => not_faults_ok _, faults_codesBody hfits,
    scanTail_eq_cut]
  exact ⟨fun h => ⟨by simpa using h.2.2.1, by omega, h.2.2.2.2⟩,
    fun h => ⟨by omega, by omega, by simp [h.1], by omega, h.2.2⟩⟩

theorem faults_parseUnsuback : Faults (parseUnsuback true hint buf) ↔
      scanTail hint buf remainingLength headerSize 2 = .cut := by
  rw [parseUnsuback, faults_codesHeader_bind hheader hfits, scanTail_eq_cut]
  dsimp only
  cases isLegacy hint
  · rw [if_neg (by simp), sub_eq (by omega), ok_bind,
      show headerSize + 2 + remainingLength - 2 = headerSize + remainingLength by omega,
      faults_bind_of_not_faults fun _ _ => not_faults_ok _, faults_codesBody hfits]
    exact ⟨fun h => ⟨rfl, by omega, h.2.2.2.2⟩,
      fun h => ⟨by omega, by omega, rfl, by omega, h.2.2⟩⟩
  · rw [if_pos rfl, faults_refuse]
    simp

theorem faults_parseDisconnect : Faults (parseDisconnect true hint buf) ↔
      scanTail hint buf remainingLength headerSize 1 = .cut := by
  rw [parseDisconnect, faults_refuse, beginPacket_memory, ok_bind, hheader, ok_bind, faults_refuse,
    scanTail_eq_cut]
  cases isLegacy hint
  · rw [if_neg (by simp)]
    rcases Nat.eq_zero_or_pos remainingLength with h0 | h0
    · simp [h0]
    · rw [if_pos h0, faults_refuse, read_eq (by omega), ok_bind]
      by_cases h1 : headerSize + 1 < headerSize + remainingLength
      · have hblock := follows_propertiesFrom (le_of_lt h1) hfits id
        rw [if_pos h1, faults_bind_of_not_faults fun _ _ => not_faults_ok _, hblock.faults_iff]
        exact ⟨fun h => ⟨rfl, by omega, h.2.2.2⟩,
          fun h => ⟨by omega, by omega, by omega, h.2.2⟩⟩
      · rw [if_neg h1]
        simp only [not_faults_ok, and_false, false_iff]
        omega
  · rw [if_pos rfl, faults_refuse]
    simp

theorem faults_parseAuth : Faults (parseAuth true hint buf) ↔
      scanTail hint buf remainingLength headerSize 1 = .cut := by
  rw [parseAuth, faults_refuse, faults_refuse, beginPacket_memory, ok_bind, hheader, ok_bind,
    faults_bind_of_not_faults fun _ _ => not_faults_ok _, faults_reasonAndProperties hfits,
    scanTail_eq_cut]
  exact ⟨fun h => ⟨by simpa using h.1, by omega, h.2.2.2⟩,
    fun h => ⟨by simp [h.1], by omega, by omega, h.2.2⟩⟩

/-! ## CONNACK, SUBSCRIBE and UNSUBSCRIBE -/

omit hsize in
theorem faults_parseConnack :
    Faults (parseConnack true hint buf) ↔
      scanConnack hint buf remainingLength headerSize = .cut := by
  rw [parseConnack, faults_refuse, beginPacket_memory, ok_bind, hheader, ok_bind, faults_refuse,
    faults_refuse, scanConnack]
  rcases lt_or_ge buf.length 4 with h4 | h4
  · simp [h4]
  rcases lt_or_ge buf.length (headerSize + 2) with h2 | h2
  · simp [h2]
  rw [read_eq (by omega), ok_bind, faults_refuse, read_eq (by omega), ok_bind]
  by_cases hflags : byteAt buf headerSize &&& 0xFE ≠ 0
  · simp [hflags]
  cases isLegacy hint
  · rw [if_neg (by simp)]
    rcases lt_trichotomy remainingLength 2 with hlt | heq | hgt
    · rw [sub_of_lt hlt, if_neg (by simp_all; omega), if_pos hlt]
      simp_all [Faults]
    · simp [heq]
    · have hblock := (follows_parseProperties (show headerSize + 2 ≤ _ by omega) hfits).faults_iff
      rw [sub_eq (by omega), ok_bind, if_pos (by omega), faults_bind_of_not_faults]
      · rw [show remainingLength - 2 = headerSize + remainingLength - (headerSize + 2) by omega,
          hblock, if_neg (by simp_all; omega), if_neg (by omega)]
        exact ⟨fun h => h.2.2.2.2, fun h => ⟨by omega, by omega, by omega, hflags, h⟩⟩
      · intro r _
        rw [faults_refuse]
        simp
  · rw [if_pos rfl, faults_refuse]
    simp

omit hsize in
theorem faults_filterHeader_bind {α : Type} {f : (Nat × Properties × Nat) × Nat → Checked Status α}
    (hf : ∀ packetId properties pos,
      ¬ Faults (f ((packetId, properties, headerSize + remainingLength), pos))) :
    Faults (filterHeader true hint buf >>= f) ↔
      scanFilters hint buf remainingLength headerSize = .cut := by
  rw [filterHeader, bind_assoc, faults_refuse, beginPacket_memory, ok_bind, hheader, ok_bind,
    bind_assoc, faults_refuse, scanFilters]
  rcases lt_or_ge buf.length 5 with h5 | h5
  · simp [h5]
  rcases lt_or_ge buf.length (headerSize + 2) with h2 | h2
  · simp [h2]
  rw [read16_eq h2, ok_bind, bind_assoc, faults_bind_of_not_faults]
  · cases isLegacy hint
    · rw [if_neg (by simp; omega)]
      rcases lt_or_ge remainingLength 2 with hlt | hge
      · rw [if_pos hlt, optional, if_pos (by rfl), propertiesFrom, sub_of_lt (by omega)]
        exact ⟨fun _ => rfl, fun _ => ⟨by omega, by omega, .underflow, rfl⟩⟩
      · rw [if_neg (by omega), faults_optional_propertiesFrom (by omega) hfits]
        exact ⟨fun h => h.2.2.2, fun h => ⟨by omega, by omega, rfl, h⟩⟩
    · simp [optional]
  · exact fun r _ => hf _ r.1 r.2

omit hsize in
theorem faults_parseSubscribe :
    Faults (parseSubscribe true hint buf) ↔
      scanFilters hint buf remainingLength headerSize = .cut :=
  faults_filterHeader_bind hheader hfits fun _ _ _ =>
    not_faults_bind (not_faults_subscriptionsLoop hfits _ _ _) fun _ _ => not_faults_ok _

omit hsize in
theorem faults_parseUnsubscribe :
    Faults (parseUnsubscribe true hint buf) ↔
      scanFilters hint buf remainingLength headerSize = .cut :=
  faults_filterHeader_bind hheader hfits fun _ _ _ =>
    not_faults_bind (not_faults_topicFiltersLoop hfits _ _ _) fun _ _ => not_faults_ok _

end Packets

/-! ## PUBLISH -/

section Publish

variable {remainingLength headerSize pos : Nat}

theorem faults_payload {α : Type} {f : Str → α} (hfits : headerSize + remainingLength ≤ buf.length)
    (hpos : headerSize ≤ pos) :
    Faults (do
      let used ← sub pos headerSize
      let payloadLength ← sub remainingLength used
      let payload ← assign buf pos payloadLength
      (.ok (f payload) : Checked Status α)) ↔ headerSize + remainingLength < pos := by
  rw [sub_eq hpos, ok_bind]
  rcases lt_or_ge remainingLength (pos - headerSize) with hlt | hge
  · rw [sub_of_lt hlt]
    exact ⟨fun _ => by omega, fun _ => ⟨.underflow, rfl⟩⟩
  · rw [sub_eq hge, ok_bind, assign_eq (by omega), ok_bind]
    simp only [not_faults_ok, false_iff]
    omega

theorem faults_publishBlock {α : Type} {f : Properties × Nat → Checked Status α}
    (hpos : headerSize ≤ pos) (hle : pos ≤ buf.length)
    (hf : ∀ r, headerSize ≤ r.2 → (Faults (f r) ↔ headerSize + remainingLength < r.2)) :
    Faults (optional (!isLegacy hint) pos {}
        (propertiesFrom buf pos buf.length keepProtocol) >>= f) ↔
      (if isLegacy hint then .ends pos else scanProperties buf buf.length pos).andThen
        (fun payloadPos => if headerSize + remainingLength < payloadPos then .cut else .stops) =
          .cut := by
  cases isLegacy hint
  · refine (follows_propertiesFrom hle (le_refl _) keepProtocol).faults_bind (fun r hr _ _ => ?_)
    rw [hf r (le_trans hpos (le_propertiesFrom hr))]
    split <;> simp_all
  · rw [optional, if_neg (by simp), ok_bind, hf _ hpos, if_pos rfl, Scan.andThen]
    split <;> simp_all

theorem faults_parsePublish (hheader : fixedHeader buf = .ok (remainingLength, headerSize))
    (hsize : 2 ≤ headerSize) (hle : headerSize ≤ buf.length)
    (hfits : headerSize + remainingLength ≤ buf.length) :
    Faults (parsePublish true hint buf) ↔
      scanPublish hint buf remainingLength headerSize = .cut := by
  rw [parsePublish, faults_refuse, and_iff_right (by omega), beginPacket_memory, ok_bind,
    read_eq (by omega), ok_bind, hheader, ok_bind, scanPublish]
  refine (follows_stringFrom hle (le_refl _) _).faults_bind fun r hr _ hrle => ?_
  obtain ⟨topicName, pos⟩ := r
  have hpos : headerSize ≤ pos := le_stringFrom hr
  dsimp only at hrle ⊢
  cases decide (0 < publishQos (byteAt buf 0))
  · rw [optional_false, ok_bind]
    simp only [Bool.false_eq_true, false_and, if_false]
    exact faults_publishBlock hpos hrle fun r hr => faults_payload hfits hr
  · rw [optional, if_pos rfl, bind_assoc, faults_refuse]
    rcases lt_or_ge buf.length (pos + 2) with h2 | h2
    · simp [h2]
    · rw [read16_eq h2, ok_bind, ok_bind, if_neg (by simpa using h2), if_pos rfl,
        and_iff_right (by omega)]
      exact faults_publishBlock (by omega) h2 fun r hr => faults_payload hfits hr

end Publish

/-! ## CONNECT -/

theorem not_faults_optionalText {f : Str × Nat → Checked Status α} (hpos : pos ≤ buf.length)
    (hf : ∀ r, r.2 ≤ buf.length → ¬ Faults (f r)) :
    ¬ Faults (optional c pos [] (stringFrom buf pos buf.length error) >>= f) := by
  cases c
  · exact hf _ hpos
  · exact not_faults_bind (not_faults_stringFrom hpos (le_refl _) error)
      (fun r hr => hf r (le_of_stringFrom hpos (le_refl _) hr))

theorem not_faults_connectFields {will username password} (hpos : pos ≤ buf.length)
    (f : Str × Nat → Str × Nat → Str × Nat → Str × Nat → α) :
    ¬ Faults (do
      let topic ← optional will pos [] (stringFrom buf pos buf.length error)
      let payload ← optional will topic.2 [] (stringFrom buf topic.2 buf.length error)
      let name ← optional username payload.2 [] (stringFrom buf payload.2 buf.length error)
      let secret ← optional password name.2 [] (stringFrom buf name.2 buf.length error)
      refuse (secret.2 > buf.length) .packetIncomplete
      (.ok (f topic payload name secret) : Checked Status α)) := by
  refine not_faults_optionalText hpos fun r hr => ?_
  refine not_faults_optionalText hr fun r hr => ?_
  refine not_faults_optionalText hr fun r hr => ?_
  refine not_faults_optionalText hr fun r hr => ?_
  rw [faults_refuse]
  simp

theorem faults_willBlock {f : Properties × Nat → Checked Status α} (hpos : pos ≤ buf.length)
    (hf : ∀ r, r.2 ≤ buf.length → ¬ Faults (f r)) :
    Faults (optional c pos {} (propertiesFrom buf pos buf.length error) >>= f) ↔
      (if c then scanProperties buf buf.length pos else .stops) = .cut := by
  cases c
  · simp [hf ({}, pos) hpos]
  · have hblock := follows_propertiesFrom hpos (le_refl _) error
    rw [optional, if_pos rfl, faults_bind_of_not_faults fun r hr => hf r (hblock.le_of_ok hr),
      hblock.faults_iff, if_pos rfl]

section

variable (hheader : fixedHeader buf = .ok (remainingLength, headerSize))
include hheader

theorem faults_parseConnect (hle : headerSize ≤ buf.length) :
    Faults (parseConnect true buf) ↔ scanConnect buf headerSize = .cut := by
  rw [parseConnect, faults_refuse, scanConnect]
  rcases lt_or_ge buf.length 10 with h10 | h10
  · simp [h10]
  rw [and_iff_right (by omega), if_neg (by omega), beginPacket_memory, ok_bind, hheader, ok_bind]
  refine (follows_stringFrom hle (le_refl _) _).faults_bind fun r _ _ hpos => ?_
  obtain ⟨protocolName, pos⟩ := r
  dsimp only at hpos ⊢
  rcases lt_or_ge buf.length (pos + 1) with h1 | h1
  · rw [faults_refuse, if_pos (.inl (by omega))]
    simp [h1]
  rw [faults_refuse, and_iff_right (by omega), read_eq h1, ok_bind]
  rcases lt_or_ge buf.length (pos + 2) with h2 | h2
  · rw [faults_refuse, if_pos (.inl (by omega))]
    simp [h2]
  rw [faults_refuse, and_iff_right (by omega), read_eq h2, ok_bind, faults_refuse]
  by_cases hreserved : byteAt buf (pos + 1) &&& 0x01 ≠ 0
  · simp [hreserved]
  rcases lt_or_ge buf.length (pos + 4) with h4 | h4
  · rw [faults_refuse, if_pos (.inl (by omega))]
    simp [h4]
  rw [and_iff_right hreserved, faults_refuse, and_iff_right (by omega), read16_eq (by omega),
    ok_bind, faults_refuse]
  by_cases hv5 : byteAt buf pos = 5
  · rw [hv5]
    simp only [BEq.rfl, Bool.and_true]
    rw [and_iff_right (by simp), if_neg (by simp_all)]
    refine (follows_propertiesFrom h4 (le_refl _) _).faults_bind fun r _ _ hr => ?_
    refine (follows_stringFrom hr (le_refl _) _).faults_bind fun r _ _ hr => ?_
    exact faults_willBlock hr fun r hr => not_faults_connectFields hr _
  · have hisV5 : (byteAt buf pos == 5) = false := by simpa using hv5
    rw [hisV5, if_pos (.inr (.inr hv5))]
    simp only [Bool.and_false, optional_false, ok_bind, reduceCtorEq, iff_false, not_and]
    refine fun _ => not_faults_bind (not_faults_stringFrom h4 (le_refl _) _) fun r hr => ?_
    exact not_faults_connectFields (le_of_stringFrom h4 (le_refl _) hr) _

/-! ## The parser -/

theorem faults_parseTyped (hsize : 2 ≤ headerSize) (hle : headerSize ≤ buf.length)
    (hfits : headerSize + remainingLength ≤ buf.length) (type : PacketType) :
    Faults (parseTyped true hint buf type) ↔
      scanTyped hint buf remainingLength headerSize type = .cut := by
  cases type with
  | connect => exact faults_parseConnect hheader hle
  | connack => exact faults_parseConnack hheader hfits
  | publish => exact faults_parsePublish hheader hsize hle hfits
  | puback | pubrec => exact faults_bind_ok.trans (faults_parseAckStrict hheader hsize hfits)
  | pubrel | pubcomp => exact faults_bind_ok.trans (faults_parseAckLoose hheader hsize hfits)
  | subscribe => exact faults_parseSubscribe hheader hfits
  | suback => exact faults_parseSuback hheader hsize hfits
  | unsubscribe => exact faults_parseUnsubscribe hheader hfits
  | unsuback => exact faults_parseUnsuback hheader hsize hfits
  | pingreq | pingresp => simp [parseTyped, parsePing, scanTyped]
  | disconnect => exact faults_parseDisconnect hheader hsize hfits
  | auth => exact faults_parseAuth hheader hsize hfits

end

/-! ## Without memory -/

theorem faults_begin_unallocated {checksPointer} {f : Unit → Checked Status α} :
    Faults (beginPacket false checksPointer >>= f) ↔ checksPointer = false := by
  cases checksPointer with
  | true => simp [beginPacket, fail, Faults]
  | false => exact ⟨fun _ => rfl, fun _ => faults_nullWrite⟩

/-- A parser that does not look at the pointer writes through it once the length is checked. -/
theorem faults_unchecked {n : Nat} {e} {f : Unit → Checked Status α} :
    Faults (refuse (buf.length < n) e >>= fun _ => beginPacket false false >>= f) ↔
      (if buf.length < n then Scan.stops else .cut) = .cut := by
  rw [faults_refuse, faults_begin_unallocated]
  split <;> simp_all

theorem not_faults_checked {n : Nat} {e} {f : Unit → Checked Status α} :
    ¬ Faults (refuse (buf.length < n) e >>= fun _ => beginPacket false true >>= f) := by
  rw [faults_refuse, faults_begin_unallocated]
  simp

theorem not_faults_filterHeader_bind {f : (Nat × Properties × Nat) × Nat → Checked Status α} :
    ¬ Faults (filterHeader false hint buf >>= f) := by
  simp only [filterHeader, bind_assoc]
  exact not_faults_checked

theorem faults_codesHeader_unallocated {n : Nat} {f : (Nat × Nat) × Nat → Checked Status α} :
    Faults (codesHeader false n buf >>= f) ↔
      (if buf.length < n then Scan.stops else .cut) = .cut := by
  simp only [codesHeader, bind_assoc]
  exact faults_unchecked

theorem faults_parseTyped_unallocated (h2 : 2 ≤ buf.length) (type : PacketType) :
    Faults (parseTyped false hint buf type) ↔ scanUnallocated buf type = .cut := by
  cases type with
  | connect | publish => exact iff_of_false not_faults_checked Scan.noConfusion
  | subscribe | unsubscribe => exact iff_of_false not_faults_filterHeader_bind Scan.noConfusion
  | auth =>
    rw [parseTyped, parseAuth, faults_refuse]
    exact iff_of_false (fun h => not_faults_checked h.2) Scan.noConfusion
  | connack => exact faults_unchecked
  | puback | pubrec | pubrel | pubcomp => exact faults_bind_ok.trans faults_unchecked
  | suback | unsuback => exact faults_codesHeader_unallocated
  | pingreq | pingresp => exact faults_begin_unallocated.trans (iff_of_true rfl rfl)
  | disconnect =>
    refine faults_unchecked.trans ?_
    rw [if_neg (by omega), scanUnallocated]

theorem faults_dispatchPacket {memory} :
    Faults (dispatchPacket memory hint buf) ↔ scanPacket memory hint buf = .cut := by
  rw [dispatchPacket, faults_refuse, scanPacket]
  rcases lt_or_ge buf.length 2 with h2 | h2
  · cases hheader : fixedHeader buf with
    | error e => simp [h2]
    | ok r => exact absurd hheader (fixedHeader_ne_ok h2 r)
  obtain ⟨hfault, hok⟩ := fixedHeader_spec (show 0 < buf.length by omega)
  rw [and_iff_right (by omega), read_eq (by omega), ok_bind]
  cases hheader : fixedHeader buf with
  | error e =>
    rcases e with e | f
    · simp [Faults]
    · exact absurd ⟨f, hheader⟩ hfault
  | ok r =>
    obtain ⟨remainingLength, headerSize⟩ := r
    obtain ⟨hsize, hle⟩ := hok _ hheader
    rw [ok_bind]
    dsimp only
    rw [faults_refuse]
    rcases lt_or_ge buf.length (headerSize + remainingLength) with hlt | hfits
    · simp [hlt]
    rw [and_iff_right (by omega), if_neg (by omega)]
    cases PacketType.ofByte (byteAt buf 0) with
    | none => simp
    | some type =>
      dsimp only
      have htyped : Faults (parseTyped memory hint buf type) ↔
          (if memory then scanTyped hint buf remainingLength headerSize type
            else scanUnallocated buf type) = .cut := by
        cases memory with
        | true => exact faults_parseTyped hheader hsize hle hfits type
        | false => exact faults_parseTyped_unallocated h2 type
      rw [faults_refuse, htyped]
      by_cases hflags : type.flags.any fun flags => byteAt buf 0 &&& 0x0F != flags <;> simp [hflags]

/-- The parser stays within its buffer and writes through no null pointer exactly on the inputs
whose scan is not cut. -/
theorem parsePacket_safe_iff (memory : Bool) (hint : UInt8) (buf : Str) :
    ¬ Faults (dispatchPacket memory hint buf) ↔ scanPacket memory hint buf ≠ .cut :=
  not_congr faults_dispatchPacket

def truncatedProperty : Str := [0x30, 0x05, 0x00, 0x01, 0x61, 0x01, 0x01]

/-- A property value is read behind the end of the buffer, and a PINGREQ that finds no memory is
written to a null pointer. -/
theorem parsePacket_faults :
    dispatchPacket true 5 truncatedProperty = .error (.fault (.outOfBounds 7)) ∧
      dispatchPacket false 5 [0xC0, 0x00] = .error (.fault .nullPointer) := by
  decide

end Mqtts.Protocol

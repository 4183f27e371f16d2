import Mqtts.Protocol.Fields

/-!
# The framers

The TCP reader finds the packets of a stream step by step: `read_packet` takes what the socket has,
at most the bytes that it still needs, and `process_loop` hands over the buffer when a packet is
complete. The WebSocket bridge has all bytes of a message and asks `mqtt_packet_total_length` for
the next boundary again and again.
-/

namespace Mqtts.Protocol

open List Checked

inductive FrameError where
  | incomplete
  | tooLarge
  | invalid

/-! ## The bridge -/

/-- The loop of `mqtt_packet_total_length`; at most `left` more bytes belong to the length. -/
def totalLengthLoop (maxPacket : Nat) (data : Str) :
    Nat → Nat → Nat → Nat → Except FrameError Nat
  | 0, _, _, _ => .error .invalid
  | left + 1, lengthBytes, remainingLength, multiplier =>
    match data[1 + lengthBytes]? with
    | none => .error .incomplete
    | some encoded =>
      let remainingLength := remainingLength + (encoded &&& 0x7F).toNat * multiplier
      if encoded &&& 0x80 = 0 then
        let total := 1 + (lengthBytes + 1) + remainingLength
        if maxPacket ≠ 0 ∧ total > maxPacket then .error .tooLarge
        else if data.length < total then .error .incomplete
        else .ok total
      else totalLengthLoop maxPacket data left (lengthBytes + 1) remainingLength (multiplier * 128)

def mqttPacketTotalLength (maxPacket : Nat) (data : Str) : Except FrameError Nat :=
  if data.length < 2 then .error .incomplete else totalLengthLoop maxPacket data 4 0 0 1

theorem totalLengthLoop_bounds {maxPacket data total} : ∀ {left n r m},
    totalLengthLoop maxPacket data left n r m = .ok total → 0 < total ∧ total ≤ data.length
  | 0, _, _, _, h => by cases h
  | left + 1, n, r, m, h => by
    simp only [totalLengthLoop] at h
    split at h
    · cases h
    split at h
    · split_ifs at h
      cases h
      omega
    · exact totalLengthLoop_bounds h

theorem totalLength_bounds {maxPacket data total}
    (h : mqttPacketTotalLength maxPacket data = .ok total) : 0 < total ∧ total ≤ data.length := by
  rw [mqttPacketTotalLength] at h
  split_ifs at h
  exact totalLengthLoop_bounds h

def frames (maxPacket : Nat) (data : Str) : List Str × FrameError :=
  match _h : mqttPacketTotalLength maxPacket data with
  | .error e => ([], e)
  | .ok total =>
    let rest := frames maxPacket (data.drop total)
    (data.take total :: rest.1, rest.2)
termination_by data.length
decreasing_by
  have := totalLength_bounds _h
  rw [length_drop]
  omega

variable {limit : Nat} {data : Str}

theorem frames_of_error {e} (h : mqttPacketTotalLength limit data = .error e) :
    frames limit data = ([], e) := by
  rw [frames]
  split <;> simp_all

theorem frames_of_ok {rest} (h : mqttPacketTotalLength limit (data ++ rest) = .ok data.length) :
    frames limit (data ++ rest) = (data :: (frames limit rest).1, (frames limit rest).2) := by
  rw [frames]
  split <;> simp_all

/-! ## The reader -/

inductive ReadState where
  | header
  | remaining
  | payload
  deriving DecidableEq

/-- The fields of `read_packet`; `bytes_read_` is the length of the buffer. -/
structure Reader where
  state : ReadState := .header
  buffer : Str := []
  bytesNeeded : Nat := 1
  remainingLength : Nat := 0
  headerSize : Nat := 0

namespace Reader

/-- `read_packet` on the bytes that were received. The length takes four bytes at most, so its
32 bits suffice. -/
def readPacket (limit : Nat) (r : Reader) (chunk : Str) : Except FrameError Reader :=
  let buffer := r.buffer ++ chunk
  let r := { r with buffer }
  match r.state with
  | .header =>
    if 1 ≤ buffer.length then .ok { r with state := .remaining, bytesNeeded := 1 }
    else .ok { r with bytesNeeded := 1 - buffer.length }
  | .remaining =>
    if buffer.length > 1 then
      let index := buffer.length - 1 - 1
      let byte := buffer.getLastD 0
      let before := if index = 0 then 0 else r.remainingLength
      let remainingLength := before + (byte &&& 0x7F).toNat * 2 ^ (7 * index)
      if byte &&& 0x80 = 0 then
        if remainingLength > limit ∨ buffer.length > limit ∨
            buffer.length > limit - remainingLength then .error .tooLarge
        else .ok { r with
          state := .payload, remainingLength, bytesNeeded := remainingLength
          headerSize := buffer.length }
      else if index ≥ 3 then .error .invalid
      else .ok { r with remainingLength, bytesNeeded := 1 }
    else .ok { r with bytesNeeded := 1 }
  | .payload =>
    let payloadRead := buffer.length - r.headerSize
    if payloadRead < r.remainingLength then
      .ok { r with bytesNeeded := r.remainingLength - payloadRead }
    else .ok r

/-- The check of `ensure_buffer_size`. -/
def roomy (limit : Nat) (r : Reader) : Bool :=
  !(r.bytesNeeded > limit || r.buffer.length > limit || r.buffer.length > limit - r.bytesNeeded)

end Reader

/-- `process_loop`, with the packets that it has handled and the error that has ended it. -/
structure Loop where
  reader : Reader := {}
  packets : List Str := []
  fault : Option FrameError := none

namespace Loop

def step (limit : Nat) (x : Loop) (chunk : Str) : Option Loop :=
  if x.fault.isSome ∨ chunk = [] ∨ x.reader.bytesNeeded < chunk.length then none
  else if !x.reader.roomy limit then some { x with fault := some .tooLarge }
  else match x.reader.readPacket limit chunk with
    | .error e => some { x with fault := some e }
    | .ok r =>
      if r.state = .payload ∧ r.buffer.length ≥ r.headerSize + r.remainingLength then
        some { x with reader := {}, packets := x.packets ++ [r.buffer] }
      else some { x with reader := r }

end Loop

/-! ## Agreement -/

/-- Between two chunks the reader's fields say what the bridge will compute on the bytes in the
buffer and any that follow. -/
def Reader.Ahead (limit : Nat) (r : Reader) : Prop :=
  match r.state with
  | .header => r = {}
  | .remaining => ∃ k ≤ 3, r.buffer.length = k + 1 ∧ r.bytesNeeded = 1 ∧
    ∀ rest, 2 ≤ (r.buffer ++ rest).length → mqttPacketTotalLength limit (r.buffer ++ rest) =
      totalLengthLoop limit (r.buffer ++ rest) (3 - k + 1) k
        (if k = 0 then 0 else r.remainingLength) (2 ^ (7 * k))
  | .payload => r.headerSize + r.remainingLength ≤ limit ∧ r.headerSize ≤ r.buffer.length ∧
    r.buffer.length + r.bytesNeeded = r.headerSize + r.remainingLength ∧ 0 < r.bytesNeeded ∧
    ∀ rest, mqttPacketTotalLength limit (r.buffer ++ rest) =
      if (r.buffer ++ rest).length < r.headerSize + r.remainingLength then .error .incomplete
      else .ok (r.headerSize + r.remainingLength)

variable {r : Reader} {chunk : Str}

theorem Reader.Ahead.roomy (h : r.Ahead limit) (hlimit : 5 ≤ limit) : r.roomy limit := by
  unfold Reader.roomy
  cases hstate : r.state with simp only [Reader.Ahead, hstate] at h
  | header =>
    rw [h]
    simp
    omega
  | remaining =>
    obtain ⟨k, hk, hlength, hneeded, -⟩ := h
    simp only [hlength, hneeded]
    simp
    omega
  | payload =>
    obtain ⟨hle, hheader, hneeded, -⟩ := h
    simp
    omega

/-- What `read_packet` makes of the bytes that were received. -/
inductive Read (limit : Nat) (buffer : Str) : Except FrameError Reader → Prop where
  | fault {e} : (∀ rest, mqttPacketTotalLength limit (buffer ++ rest) = .error e) →
      Read limit buffer (.error e)
  | packet {r : Reader} : r.buffer = buffer → r.state = .payload →
      buffer.length = r.headerSize + r.remainingLength →
      (∀ rest, mqttPacketTotalLength limit (buffer ++ rest) = .ok buffer.length) →
      Read limit buffer (.ok r)
  | more {r : Reader} : r.buffer = buffer → r.Ahead limit → Read limit buffer (.ok r)

theorem read_header (h : r.Ahead limit) (hstate : r.state = .header) (byte : UInt8) :
    Read limit (r.buffer ++ [byte]) (r.readPacket limit [byte]) := by
  simp only [Reader.Ahead, hstate] at h
  subst h
  refine .more rfl ⟨0, by omega, rfl, rfl, fun rest hrest => ?_⟩
  rw [mqttPacketTotalLength, if_neg (not_lt.2 hrest)]
  rfl

theorem read_remaining (h : r.Ahead limit) (hlimit : limit ≠ 0) (hstate : r.state = .remaining)
    (byte : UInt8) : Read limit (r.buffer ++ [byte]) (r.readPacket limit [byte]) := by
  simp only [Reader.Ahead, hstate] at h
  obtain ⟨k, hk, hlength, hneeded, hloop⟩ := h
  have hget : ∀ rest, (r.buffer ++ [byte] ++ rest)[1 + k]? = some byte := fun rest => by
    rw [append_assoc, getElem?_append_right (by omega), hlength]
    simp [Nat.add_comm]
  have hnext := fun rest => hloop ([byte] ++ rest) (by simp; omega)
  simp only [totalLengthLoop, ← append_assoc, hget] at hnext
  simp only [Reader.readPacket, hstate, length_append, length_singleton, hlength,
    show k + 1 + 1 - 1 - 1 = k by omega, getLastD_concat]
  rw [if_pos (by omega)]
  generalize (if k = 0 then 0 else r.remainingLength) + (byte &&& 0x7F).toNat * 2 ^ (7 * k) = n
    at hnext ⊢
  by_cases hbyte : byte &&& 0x80 = 0
  · simp only [if_pos hbyte] at hnext ⊢
    by_cases hlarge : k + 2 + n > limit
    · rw [if_pos (by omega)]
      exact .fault fun rest => by rw [hnext, if_pos ⟨hlimit, by omega⟩]
    rw [if_neg (by omega)]
    simp only [if_neg (show ¬ (limit ≠ 0 ∧ 1 + (k + 1) + n > limit) by omega)] at hnext
    rcases Nat.eq_zero_or_pos n with rfl | hpos
    · refine .packet rfl rfl (by simp [hlength]) fun rest => ?_
      rw [hnext, if_neg (by simp; omega)]
      simp [hlength, Nat.add_comm]
    · refine .more rfl ⟨by simp; omega, by simp [hlength], by simp [hlength], hpos, fun rest => ?_⟩
      rw [hnext, show 1 + (k + 1) = k + 1 + 1 by omega]
  · simp only [if_neg hbyte] at hnext ⊢
    split_ifs with hlast
    · obtain rfl : k = 3 := by omega
      exact .fault hnext
    · refine .more rfl ⟨k + 1, by omega, by simp [hlength], rfl, fun rest _ => ?_⟩
      rw [hnext, show 3 - k = 3 - (k + 1) + 1 by omega, if_neg (by omega),
        show 7 * (k + 1) = 7 * k + 7 from rfl, Nat.pow_add]

theorem read_payload (h : r.Ahead limit) (hstate : r.state = .payload)
    (hchunk : chunk.length ≤ r.bytesNeeded) :
    Read limit (r.buffer ++ chunk) (r.readPacket limit chunk) := by
  simp only [Reader.Ahead, hstate] at h
  obtain ⟨hle, hheader, hneeded, hpos, htotal⟩ := h
  simp only [Reader.readPacket, hstate, length_append]
  split_ifs with hmore
  · refine .more rfl ⟨hle, ?_, ?_, ?_, fun rest => ?_⟩
    · simp; omega
    · simp; omega
    · simp; omega
    · rw [append_assoc, htotal, ← append_assoc]
  · have hlength : (r.buffer ++ chunk).length = r.headerSize + r.remainingLength := by
      rw [length_append]
      omega
    refine .packet rfl rfl hlength fun rest => ?_
    rw [append_assoc, htotal, ← append_assoc, hlength, if_neg (by rw [length_append]; omega)]

theorem read_spec (h : r.Ahead limit) (hlimit : limit ≠ 0) (hne : chunk ≠ [])
    (hchunk : chunk.length ≤ r.bytesNeeded) :
    Read limit (r.buffer ++ chunk) (r.readPacket limit chunk) := by
  have hone : r.bytesNeeded = 1 → ∃ byte, chunk = [byte] := fun hneeded => by
    have := length_pos_iff.2 hne
    exact length_eq_one_iff.1 (by omega)
  cases hstate : r.state with
  | header =>
    have hr := h
    simp only [Reader.Ahead, hstate] at hr
    obtain ⟨byte, rfl⟩ := hone (by rw [hr])
    exact read_header h hstate byte
  | remaining =>
    have hr := h
    simp only [Reader.Ahead, hstate] at hr
    obtain ⟨-, -, -, hneeded, -⟩ := hr
    obtain ⟨byte, rfl⟩ := hone hneeded
    exact read_remaining h hlimit hstate byte
  | payload => exact read_payload h hstate hchunk

theorem Reader.Ahead.waits (h : r.Ahead limit) :
    mqttPacketTotalLength limit r.buffer = .error .incomplete ∧
      ¬ (r.state = .payload ∧ r.buffer.length ≥ r.headerSize + r.remainingLength) := by
  cases hstate : r.state with simp only [Reader.Ahead, hstate] at h
  | header => exact ⟨by rw [h]; rfl, fun hp => absurd hp.1 (by decide)⟩
  | remaining =>
    obtain ⟨k, hk, hlength, -, hloop⟩ := h
    refine ⟨?_, fun hp => absurd hp.1 (by decide)⟩
    by_cases hshort : r.buffer.length < 2
    · rw [mqttPacketTotalLength, if_pos hshort]
    · have hnext := hloop [] (by rw [append_nil]; omega)
      rwa [append_nil, totalLengthLoop, getElem?_eq_none (by omega)] at hnext
  | payload =>
    obtain ⟨-, -, hneeded, hpos, htotal⟩ := h
    have hnext := htotal []
    rw [append_nil, if_pos (by omega)] at hnext
    exact ⟨hnext, fun hp => by omega⟩

/-! ## Whole streams -/

namespace Loop

def run (limit : Nat) (x : Loop) (chunks : List Str) : Option Loop := chunks.foldlM (step limit) x

theorem run_of_fault {x x' : Loop} {e} (h : x.fault = some e) :
    ∀ {chunks}, run limit x chunks = some x' → chunks = [] ∧ x' = x
  | [], hrun => ⟨rfl, (Option.some.inj hrun).symm⟩
  | chunk :: chunks, hrun => by simp [run, step, h] at hrun

theorem frames_run (hlimit : 5 ≤ limit) {rest} {x' : Loop} (hrest : x'.fault = none → rest = []) :
    ∀ {chunks x}, x.reader.Ahead limit → x.fault = none → run limit x chunks = some x' →
      ∃ packets, x'.packets = x.packets ++ packets ∧
        frames limit (x.reader.buffer ++ (chunks.flatten ++ rest)) =
          (packets, x'.fault.getD .incomplete)
  | [], x, h, hfault, hrun => by
    cases hrun
    rw [hrest hfault, hfault]
    exact ⟨[], (append_nil _).symm, by simpa using frames_of_error h.waits.1⟩
  | chunk :: chunks, x, h, hfault, hrun => by
    rw [run, foldlM_cons] at hrun
    obtain ⟨x₁, hstep, hrun⟩ := Option.bind_eq_some_iff.1 hrun
    rw [step, h.roomy hlimit] at hstep
    split at hstep
    · cases hstep
    rename_i hguard
    simp only [not_or, not_lt] at hguard
    have hread := read_spec h (by omega) hguard.2.1 hguard.2.2
    rw [flatten_cons, append_assoc, ← append_assoc]
    generalize x.reader.readPacket limit chunk = result at hread hstep
    cases hread with
    | fault herror =>
      cases hstep
      obtain ⟨rfl, rfl⟩ := run_of_fault rfl hrun
      exact ⟨[], (append_nil _).symm, frames_of_error (herror _)⟩
    | packet hbuffer hstate hlength hok =>
      simp only [Bool.not_true, Bool.false_eq_true, if_false] at hstep
      rw [if_pos ⟨hstate, by rw [hbuffer, hlength]⟩, hbuffer] at hstep
      cases hstep
      obtain ⟨packets, hpackets, hframes⟩ :=
        frames_run (x := ⟨{}, _, _⟩) hlimit hrest rfl hfault hrun
      refine ⟨(x.reader.buffer ++ chunk) :: packets, by rw [hpackets, append_assoc]; rfl, ?_⟩
      rw [frames_of_ok (hok _)]
      rw [show frames limit (chunks.flatten ++ rest) = _ from hframes]
    | more hbuffer hahead =>
      simp only [Bool.not_true, Bool.false_eq_true, if_false] at hstep
      rw [if_neg hahead.waits.2] at hstep
      cases hstep
      rw [← hbuffer]
      exact frames_run (x := ⟨_, _, _⟩) hlimit hrest hahead hfault hrun

end Loop

/-- The two framers find the same packets and end with the same error, whatever the chunks are, and
the third decoder of the length reads what is written. The bytes `rest` come after an error. -/
theorem framers_agree (hlimit : 5 ≤ limit) {chunks rest x}
    (hrun : Loop.run limit {} chunks = some x) (hrest : x.fault = none → rest = []) :
    frames limit (chunks.flatten ++ rest) = (x.packets, x.fault.getD .incomplete) ∧
    ∀ n ≤ 268435455, ∀ more, let bytes := serializeRemainingLength n
      parseRemainingLength (bytes ++ more) 0 (bytes ++ more).length = .ok (n, bytes.length) := by
  constructor
  · obtain ⟨packets, hpackets, hframes⟩ := Loop.frames_run hlimit hrest (by exact rfl) rfl hrun
    rw [hpackets]
    exact hframes
  · intro n hn more bytes
    exact parseRemainingLength_placed hn (placed_zero bytes more) (by simp [bytes])

def sampleChunks : List Str := [[0xC0], [0], [0x40], [2], [0x61], [0x62], [0x30], [4]]

theorem framers_agree_sample : ∃ x, Loop.run 5 {} sampleChunks = some x ∧ x.packets.length = 2 ∧
    frames 5 (sampleChunks.flatten ++ [0x61]) = (x.packets, .tooLarge) :=
  ⟨_, rfl, rfl, (framers_agree (by decide) rfl (by decide)).1⟩

end Mqtts.Protocol

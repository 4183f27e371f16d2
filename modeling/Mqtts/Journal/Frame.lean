import Mqtts.Durable.Record

/-!
# Frames of the append log

A segment file is a sequence of frames: a header of 24 bytes with magic, length, serial and two
checksums, and then the bytes of the record. `scan` reads a segment from its start and hands every
record to a visitor. Where the file ends inside a frame, the scan of the last segment cuts the file
there (`repairTail`), any other scan fails.
-/

namespace Mqtts.Journal

open List Codec Codec.Decoder
open Durable (checksum)

/-! ## Headers -/

def magic : Nat := 0x314c514d

def headerSize : Nat := 24

def maxRecord : Nat := 64 * 1024 * 1024

inductive Fault where
  | incompleteHeader | invalidMagic | corruptHeader | invalidRecordSize
  | invalidSegmentId | sequenceRegression | incompleteSegment | incompleteRecord
  | checksumMismatch | missingRecords
  | writerUnavailable | diskAdmissionFull | quotaExhausted | writerFailed

instance : Malformed Fault where
  truncated := .incompleteHeader
  trailing := .incompleteHeader

structure Header where
  bytes : Nat
  serial : Nat
  crc : Nat

variable (rs : List LogRecord) (serial : Nat) (data : Str)

def headerFields : Str :=
  putWord 4 magic ++ (putWord 4 data.length ++ (putWord 8 serial ++ putWord 4
    (checksum data).toNat))

def headerBytes : Str :=
  headerFields serial data ++ putWord 4 (checksum (headerFields serial data)).toNat

def frameBytes : Str := headerBytes serial data ++ data

def frame : Except Fault Str :=
  if data = [] ∨ data.length > maxRecord then .error .invalidRecordSize
  else .ok (frameBytes serial data)

def readHeader : Decoder Fault (Header × Nat) := do
  let start ← word 4
  refuse (start ≠ magic) .invalidMagic
  let bytes ← word 4
  let serial ← word 8
  let crc ← word 4
  let check ← word 4
  pure (⟨bytes, serial, crc⟩, check)

def decodeHeader (raw : Str) : Except Fault Header :=
  if raw.length ≠ headerSize then .error .incompleteHeader
  else
    match run readHeader raw with
    | .error e => .error e
    | .ok (h, check) =>
      if check ≠ (checksum (raw.take 20)).toNat ∨ h.bytes = 0 ∨ h.bytes > maxRecord ∨ h.serial = 0
      then .error .corruptHeader
      else .ok h

@[simp] theorem length_headerFields : (headerFields serial data).length = 20 := by
  simp [headerFields]

@[simp] theorem length_headerBytes : (headerBytes serial data).length = headerSize := by
  simp [headerBytes, headerSize]

@[simp] theorem length_frameBytes : (frameBytes serial data).length = headerSize + data.length := by
  simp [frameBytes]

theorem frame_ok {serial : Nat} {data : Str} (hne : data ≠ []) (hmax : data.length ≤ maxRecord) :
    frame serial data = .ok (frameBytes serial data) := by
  rw [frame, if_neg]
  rintro (h | h)
  · exact hne h
  · omega

abbrev LogRecord := Nat × Str

structure Framed (r : LogRecord) : Prop where
  serial_pos : 0 < r.1
  serial_lt : r.1 < 2 ^ 64
  data_ne : r.2 ≠ []
  data_le : r.2.length ≤ maxRecord

theorem decodeHeader_headerBytes {r} (h : Framed r) :
    decodeHeader (headerBytes r.1 r.2) = .ok ⟨r.2.length, r.1, (checksum r.2).toNat⟩ := by
  have hlen : r.2.length < 256 ^ 4 := by
    have := h.data_le
    simp only [maxRecord] at this
    omega
  have hserial : r.1 < 256 ^ 8 := by
    have := h.serial_lt
    omega
  have hcrc : ∀ s, (checksum s).toNat < 256 ^ 4 := fun s => (checksum s).toNat_lt
  have hread : Decodes readHeader (headerBytes r.1 r.2)
      (⟨r.2.length, r.1, (checksum r.2).toNat⟩, (checksum (headerFields r.1 r.2)).toNat) := by
    have hfields : headerBytes r.1 r.2 = putWord 4 magic ++ ([] ++ (putWord 4 r.2.length ++
        (putWord 8 r.1 ++ (putWord 4 (checksum r.2).toNat ++
          putWord 4 (checksum (headerFields r.1 r.2)).toNat)))) := by
      simp [headerBytes, headerFields]
    rw [hfields]
    refine (decodes_word (by decide)).bind ((decodes_refuse (by simp)).bind ?_)
    refine (decodes_word hlen).bind ((decodes_word hserial).bind ?_)
    exact (decodes_word (hcrc _)).bind ((decodes_word (hcrc _)).map _)
  have hrun : run readHeader (headerBytes r.1 r.2) = .ok
      (⟨r.2.length, r.1, (checksum r.2).toNat⟩, (checksum (headerFields r.1 r.2)).toNat) := by
    have h' := hread []
    rw [append_nil] at h'
    simp only [run, h']
  have htake : (headerBytes r.1 r.2).take 20 = headerFields r.1 r.2 := by
    rw [headerBytes, take_append_of_le_length (by simp), take_of_length_le (by simp)]
  have hne : r.2.length ≠ 0 := by simpa using h.data_ne
  have hpos : r.1 ≠ 0 := by
    have := h.serial_pos
    omega
  have hle : ¬ r.2.length > maxRecord := Nat.not_lt.2 h.data_le
  rw [decodeHeader, if_neg (by simp), hrun]
  simp only [htake, hne, hpos, hle, ne_eq, not_true_eq_false, or_false, if_false]

/-! ## Scanning a segment -/

structure Location where
  segment : Nat
  offset : Nat
  serial : Nat
  size : Nat

structure Scanned (σ : Type) where
  state : σ
  size : Nat
  last : Nat

section Scan

variable {σ : Type} (repairTail : Bool) (segment : Nat)
  (visit : σ → Location → Str → Except Fault σ)

/-- The loop of `scan` on the bytes from `offset` on. -/
def scanFrom : Nat → Str → Nat → Nat → σ → Except Fault (Scanned σ)
  | 0, _, offset, last, s => .ok ⟨s, offset, last⟩
  | fuel + 1, data, offset, last, s =>
    if data = [] then .ok ⟨s, offset, last⟩
    else if data.length < headerSize then
      if repairTail then .ok ⟨s, offset, last⟩ else .error .incompleteSegment
    else
      match decodeHeader (data.take headerSize) with
      | .error e => .error e
      | .ok h =>
        let body := (data.drop headerSize).take h.bytes
        if body.length ≠ h.bytes then
          if repairTail then .ok ⟨s, offset, last⟩ else .error .incompleteRecord
        else if (checksum body).toNat ≠ h.crc ∨ h.serial ≤ last then .error .checksumMismatch
        else
          match visit s ⟨segment, offset, h.serial, h.bytes⟩ body with
          | .error e => .error e
          | .ok s =>
            scanFrom fuel (data.drop (headerSize + h.bytes)) (offset + (headerSize + h.bytes))
              h.serial s

/-- `scan`. The file is cut to the size that the scan returns. -/
def scan (data : Str) (s : σ) : Except Fault (Scanned σ) :=
  scanFrom repairTail segment visit data.length data 0 0 s

end Scan

def frames : Str := rs.flatMap fun r => frameBytes r.1 r.2

@[simp] theorem frames_nil : frames [] = [] := rfl

@[simp] theorem frames_cons (r : LogRecord) (rs : List LogRecord) :
    frames (r :: rs) = frameBytes r.1 r.2 ++ frames rs := rfl

@[simp] theorem frames_append (rs' : List LogRecord) :
    frames (rs ++ rs') = frames rs ++ frames rs' := by
  simp [frames]

/-- The records whose frames are complete. -/
def fitting : Nat → List LogRecord → List LogRecord
  | _, [] => []
  | n, r :: rs =>
    if headerSize + r.2.length ≤ n then r :: fitting (n - (headerSize + r.2.length)) rs else []

def located (segment : Nat) : Nat → List LogRecord → List (Location × Str)
  | _, [] => []
  | offset, r :: rs =>
    (⟨segment, offset, r.1, r.2.length⟩, r.2) ::
      located segment (offset + (headerSize + r.2.length)) rs

def lastSerial (last : Nat) (rs : List LogRecord) : Nat := (rs.getLast?.map (·.1)).getD last

theorem lastSerial_cons (last : Nat) (r : LogRecord) (rs : List LogRecord) :
    lastSerial last (r :: rs) = lastSerial r.1 rs := by
  cases rs with
  | nil => rfl
  | cons r' rs =>
    rw [lastSerial, lastSerial, List.getLast?_cons_of_ne_nil (by simp), List.getLast?_cons]
    rfl

theorem fitting_prefix (n : Nat) (rs : List LogRecord) : ∃ lost, fitting n rs ++ lost = rs := by
  induction rs generalizing n with
  | nil => exact ⟨[], rfl⟩
  | cons r rs ih =>
    rw [fitting]
    split
    · obtain ⟨lost, h⟩ := ih (n - (headerSize + r.2.length))
      exact ⟨lost, by rw [cons_append, h]⟩
    · exact ⟨r :: rs, rfl⟩

theorem fitting_of_length_le {n rs} (h : (frames rs).length ≤ n) : fitting n rs = rs := by
  induction rs generalizing n with
  | nil => rfl
  | cons r rs ih =>
    rw [frames_cons, length_append, length_frameBytes] at h
    rw [fitting, if_pos (by omega), ih (by omega)]

theorem take_frames_fitting (n : Nat) (rs : List LogRecord) :
    (frames rs).take (frames (fitting n rs)).length = frames (fitting n rs) := by
  obtain ⟨lost, h⟩ := fitting_prefix n rs
  have hframes : frames rs = frames (fitting n rs) ++ frames lost := by rw [← frames_append, h]
  rw [hframes]
  exact take_left' rfl

theorem length_frames_fitting_le (n : Nat) (rs : List LogRecord) :
    (frames (fitting n rs)).length ≤ n := by
  induction rs generalizing n with
  | nil => simp [fitting]
  | cons r rs ih =>
    rw [fitting]
    split
    · have := ih (n - (headerSize + r.2.length))
      simp only [frames_cons, length_append, length_frameBytes]
      omega
    · simp

section Scan

variable {σ : Type} {repairTail : Bool} {segment : Nat}
  {visit : σ → Location → Str → Except Fault σ}

theorem scanFrom_frame {r} (hr : Framed r) {last} (hlast : last < r.1) (rest : Str)
    (fuel offset : Nat) (s : σ) :
    scanFrom repairTail segment visit (fuel + 1) (frameBytes r.1 r.2 ++ rest) offset last s =
      match visit s ⟨segment, offset, r.1, r.2.length⟩ r.2 with
      | .error e => .error e
      | .ok s =>
        scanFrom repairTail segment visit fuel rest (offset + (headerSize + r.2.length)) r.1 s := by
  have hne : frameBytes r.1 r.2 ++ rest ≠ [] := by
    intro h
    have := congrArg List.length h
    simp [headerSize] at this
  have hlen : ¬ (frameBytes r.1 r.2 ++ rest).length < headerSize := by simp; omega
  have htake : (frameBytes r.1 r.2 ++ rest).take headerSize = headerBytes r.1 r.2 := by
    rw [frameBytes, append_assoc, take_append_of_le_length (by simp), take_of_length_le (by simp)]
  have hdrop : (frameBytes r.1 r.2 ++ rest).drop headerSize = r.2 ++ rest := by
    rw [frameBytes, append_assoc]
    exact drop_left' (length_headerBytes _ _)
  have hrest : (frameBytes r.1 r.2 ++ rest).drop (headerSize + r.2.length) = rest :=
    drop_left' (length_frameBytes _ _)
  have hserial : ¬ r.1 ≤ last := by omega
  rw [scanFrom, if_neg hne, if_neg hlen, htake, decodeHeader_headerBytes hr]
  simp only [hdrop, hrest, take_left', ne_eq, not_true_eq_false, if_false, hserial, or_self]

theorem scanFrom_take {rs} (hrs : ∀ r ∈ rs, Framed r) {last}
    (hinc : (last :: rs.map (·.1)).Pairwise (· < ·)) {n}
    (hn : repairTail ∨ (frames rs).length ≤ n) {fuel}
    (hfuel : ((frames rs).take n).length ≤ fuel) (offset : Nat) (s : σ) :
    scanFrom repairTail segment visit fuel ((frames rs).take n) offset last s =
      ((located segment offset (fitting n rs)).foldlM (fun s e => visit s e.1 e.2) s).map
        (fun s =>
          ⟨s, offset + (frames (fitting n rs)).length, lastSerial last (fitting n rs)⟩) := by
  induction rs generalizing n fuel offset last s with
  | nil =>
    cases fuel <;>
      simp [scanFrom, fitting, located, lastSerial, Except.map, pure, Except.pure]
  | cons r rs ih =>
    have hr := hrs r (by simp)
    have hlast : last < r.1 := by
      simp only [map_cons, pairwise_cons, mem_cons] at hinc
      exact hinc.1 r.1 (Or.inl rfl)
    have hinc' : (r.1 :: rs.map (·.1)).Pairwise (· < ·) := (pairwise_cons.1 hinc).2
    by_cases hfit : headerSize + r.2.length ≤ n
    · -- The first frame is complete.
      have hdata : (frames (r :: rs)).take n =
          frameBytes r.1 r.2 ++ (frames rs).take (n - (headerSize + r.2.length)) := by
        rw [frames_cons, take_append, length_frameBytes, take_of_length_le (by simpa using hfit)]
      rw [hdata] at hfuel ⊢
      obtain ⟨fuel, rfl⟩ : ∃ f, fuel = f + 1 := by
        refine ⟨fuel - 1, ?_⟩
        rw [length_append, length_frameBytes, headerSize] at hfuel
        omega
      have hfuel' : ((frames rs).take (n - (headerSize + r.2.length))).length ≤ fuel := by
        rw [length_append, length_frameBytes, headerSize] at hfuel
        simp only [headerSize]
        omega
      have hn' : repairTail ∨ (frames rs).length ≤ n - (headerSize + r.2.length) := by
        refine hn.imp_right fun h => ?_
        rw [frames_cons, length_append, length_frameBytes] at h
        omega
      rw [scanFrom_frame hr hlast, fitting, if_pos hfit, located, foldlM_cons]
      cases hv : visit s ⟨segment, offset, r.1, r.2.length⟩ r.2 with
      | error e => rfl
      | ok s' =>
        dsimp only
        rw [ih (fun r hr => hrs r (by simp [hr])) hinc' hn' hfuel']
        simp only [frames_cons, length_append, length_frameBytes, lastSerial_cons, Nat.add_assoc]
        rfl
    · -- The file ends before the end of the first frame.
      have hrepair : repairTail := by
        refine hn.resolve_right fun h => ?_
        rw [frames_cons, length_append, length_frameBytes] at h
        omega
      have hnone : fitting n (r :: rs) = [] := by rw [fitting, if_neg hfit]
      have hdata : (frames (r :: rs)).take n = (frameBytes r.1 r.2).take n := by
        rw [frames_cons, take_append_of_le_length (by simp; omega)]
      rw [hnone, hdata] at *
      cases fuel with
      | zero => simp [scanFrom, located, lastSerial, Except.map, pure, Except.pure]
      | succ fuel =>
        by_cases hshort : n < headerSize
        · by_cases hzero : (frameBytes r.1 r.2).take n = []
          · simp [scanFrom, hzero, located, lastSerial, Except.map, pure, Except.pure]
          · have hlen : ((frameBytes r.1 r.2).take n).length < headerSize := by simp; omega
            rw [scanFrom, if_neg hzero, if_pos hlen, if_pos hrepair]
            rfl
        · have hdata' : (frameBytes r.1 r.2).take n =
              headerBytes r.1 r.2 ++ r.2.take (n - headerSize) := by
            rw [frameBytes, take_append, length_headerBytes, take_of_length_le (by simp; omega)]
          have hne : headerBytes r.1 r.2 ++ r.2.take (n - headerSize) ≠ [] := by
            intro h
            have := congrArg List.length h
            simp [headerSize] at this
          have hlen : ¬ (headerBytes r.1 r.2 ++ r.2.take (n - headerSize)).length < headerSize := by
            simp
          have htake : (headerBytes r.1 r.2 ++ r.2.take (n - headerSize)).take headerSize =
              headerBytes r.1 r.2 := take_left' (length_headerBytes _ _)
          have hdrop : (headerBytes r.1 r.2 ++ r.2.take (n - headerSize)).drop headerSize =
              r.2.take (n - headerSize) := drop_left' (length_headerBytes _ _)
          have hbody : ((r.2.take (n - headerSize)).take r.2.length).length ≠ r.2.length := by
            simp
            omega
          rw [hdata', scanFrom, if_neg hne, if_neg hlen, htake, decodeHeader_headerBytes hr]
          simp only [hdrop, hbody, ne_eq, not_false_eq_true, if_true, hrepair]
          simp [located, lastSerial, Except.map, pure, Except.pure]

/-- On a file that holds frames and was cut at any byte the visitor sees exactly the records whose
frames are complete. -/
theorem scan_take {rs} (hrs : ∀ r ∈ rs, Framed r) (hinc : (rs.map (·.1)).Pairwise (· < ·)) {n}
    (hn : repairTail ∨ (frames rs).length ≤ n) (s : σ) :
    scan repairTail segment visit ((frames rs).take n) s =
      ((located segment 0 (fitting n rs)).foldlM (fun s e => visit s e.1 e.2) s).map
        (fun s => ⟨s, (frames (fitting n rs)).length, lastSerial 0 (fitting n rs)⟩) := by
  have hinc' : (0 :: rs.map (·.1)).Pairwise (· < ·) := by
    refine pairwise_cons.2 ⟨fun serial h => ?_, hinc⟩
    obtain ⟨r, hr, rfl⟩ := mem_map.1 h
    exact (hrs r hr).serial_pos
  rw [scan, scanFrom_take hrs hinc' hn (Nat.le_refl _) 0 s]
  simp only [Nat.zero_add]

end Scan

end Mqtts.Journal

import Mqtts.Journal.Frame
import Mqtts.Lib.Runs

/-!
# The append log

`AppendLog` with its directory and its worker. A directory is the list of its segment files in the
order of their numbers. A file keeps, beside its bytes, the records that were written to it; its
`link` says whether its name is on disk. The worker writes the records of a batch one by one;
callers may go on in between.
-/

namespace Mqtts.Journal

/-! ## Files -/

inductive Link where
  | linked
  | created
  | removed
  deriving DecidableEq

structure File where
  records : List LogRecord := []
  bytes : Str := []
  synced : Nat := 0
  link : Link := .linked
  deriving DecidableEq

abbrev Directory : Type := List (Nat × File)

/-- The functions of the source that touch files return the operations that they make on them, so a
stop can be placed between any two. -/
inductive FileOp where
  | create (segment : Nat)
  | write (segment : Nat) (record : LogRecord)
  | sync (segment : Nat)
  | unlink (segment : Nat)
  | syncDirectory

namespace Directory

def onFile (segment : Nat) (f : File → File) (d : Directory) : Directory :=
  d.map fun e => if e.1 = segment then (e.1, f e.2) else e

def perform (d : Directory) : FileOp → Directory
  | .create segment => d ++ [(segment, { link := .created })]
  | .write segment r =>
    onFile segment
      (fun f => { f with records := f.records ++ [r], bytes := f.bytes ++ frameBytes r.1 r.2 }) d
  | .sync segment => onFile segment (fun f => { f with synced := f.bytes.length }) d
  | .unlink segment => onFile segment (fun f => { f with link := .removed }) d
  | .syncDirectory =>
    (d.filter fun e => e.2.link ≠ .removed).map fun e => (e.1, { e.2 with link := .linked })

def performAll (d : Directory) (ops : List FileOp) : Directory := ops.foldl perform d

/-- What a stop leaves: for each file the byte at which it is cut, or nothing if its name is
gone. -/
def crash : Directory → List (Option Nat) → Option Directory
  | [], [] => some []
  | (segment, f) :: d, some n :: kept =>
    if f.synced ≤ n then
      (crash d kept).map ((segment, { f with bytes := f.bytes.take n, link := .linked }) :: ·)
    else none
  | (_, f) :: d, none :: kept => if f.link ≠ .linked then crash d kept else none
  | _, _ => none

def listing (d : Directory) : List (Nat × Str) := d.map fun e => (e.1, e.2.bytes)

end Directory

/-! ## The log in memory -/

structure Segment where
  size : Nat := 0
  last : Nat := 0
  deriving DecidableEq

inductive Entry where
  | record (data : Str)
  | seal
  | reclaim (cut : Nat) (retained : List Nat)
  deriving DecidableEq

def Entry.alone : Entry → Bool
  | .record _ => false
  | .seal | .reclaim .. => true

/-- The bytes that `append` reserves for an entry. -/
def Entry.reservation : Entry → Nat
  | .record data => data.length + headerSize
  | .seal | .reclaim .. => 0

structure Limits where
  segmentBytes : Nat
  maxDiskBytes : Nat

/-- `AppendLog`; `active` is the segment that is open for writing. -/
structure Log where
  reserved : Nat := 0
  disk : Nat := 0
  segments : List (Nat × Segment) := []
  serial : Nat := 0
  nextSegment : Nat := 1
  active : Option Nat := none
  queue : List Entry := []
  failed : Bool := false
  deriving DecidableEq

/-! ## Recovery -/

def recoverVisit (serial : Nat) (location : Location) (_ : Str) : Except Fault Nat :=
  if location.serial ≤ serial then .error .sequenceRegression else .ok location.serial

/-- The scans of `recover`; the last segment is repaired. -/
def recoverFrom : List (Nat × Str) → Log → Except Fault (Log × List (Nat × Str))
  | [], log => .ok (log, [])
  | (segment, bytes) :: rest, log =>
    match scan rest.isEmpty segment recoverVisit bytes log.serial with
    | .error e => .error e
    | .ok r =>
      match recoverFrom rest
          { log with
            serial := r.state
            segments := log.segments ++ [(segment, ⟨r.size, r.last⟩)]
            disk := log.disk + r.size } with
      | .error e => .error e
      | .ok (log, rest) => .ok (log, (segment, bytes.take r.size) :: rest)

/-- `recover`: the log on a directory, and the directory with its torn tail repaired. -/
def recover (d : List (Nat × Str)) : Except Fault (Log × List (Nat × Str)) :=
  if d.any (fun e => e.1 == 0) then .error .invalidSegmentId
  else recoverFrom d { nextSegment := d.foldl (fun n e => max n (e.1 + 1)) 1 }

structure Replayed where
  expected : Nat
  visited : List (Location × Str) := []

def replayVisit (after : Nat) (r : Replayed) (location : Location) (data : Str) :
    Except Fault Replayed :=
  if location.serial ≤ after then .ok r
  else if location.serial ≠ r.expected then .error .missingRecords
  else .ok { expected := r.expected + 1, visited := r.visited ++ [(location, data)] }

def replayFrom (after : Nat) : List (Nat × Str) → Replayed → Except Fault Replayed
  | [], r => .ok r
  | (segment, bytes) :: rest, r =>
    match scan false segment (replayVisit after) bytes r with
    | .error e => .error e
    | .ok s => replayFrom after rest s.state

namespace Log

variable (limits : Limits) (log : Log)

/-- `replay`: the records that it visits. The fence that is given may lie behind all that is
left in the segments. -/
def replay (d : List (Nat × Str)) (after : Nat) : Except Fault (List (Location × Str) × Log) :=
  match replayFrom after d { expected := after + 1 } with
  | .error e => .error e
  | .ok r => .ok (r.visited, { log with serial := max log.serial after })

/-! ## Writing -/

def append (data : Str) : Except Fault Log :=
  let bytes := data.length + headerSize
  if log.failed then .error .writerUnavailable
  else if bytes > limits.maxDiskBytes ∨ log.disk > limits.maxDiskBytes - bytes ∨
      log.reserved > limits.maxDiskBytes - bytes - log.disk then .error .diskAdmissionFull
  else .ok { log with queue := log.queue ++ [.record data], reserved := log.reserved + bytes }

def segmentSize (segment : Nat) : Nat := ((log.segments.lookup segment).getD {}).size

def closeSegment : Log × List FileOp :=
  match log.active with
  | some segment => ({ log with active := none }, [.sync segment])
  | none => (log, [])

def openSegment : Nat × Log × List FileOp :=
  match log.active with
  | some segment => (segment, log, [])
  | none =>
    (log.nextSegment, { log with
        active := some log.nextSegment
        nextSegment := log.nextSegment + 1
        segments := log.segments ++ [(log.nextSegment, {})] },
      [.create log.nextSegment, .syncDirectory])

/-- The start of `write_record`: a segment that would become too large is closed. -/
def rotate (bytes : Nat) : Log × List FileOp :=
  if log.active.any (fun segment => log.segmentSize segment + bytes > limits.segmentBytes) then
    log.closeSegment
  else (log, [])

/-- The end of `write_record` in the open segment. -/
def put (segment bytes : Nat) (data : Str) : Location × Log × List FileOp :=
  (⟨segment, log.segmentSize segment, log.serial + 1, data.length⟩, { log with
      serial := log.serial + 1
      segments := log.segments.map fun e =>
        if e.1 = segment then (e.1, ⟨e.2.size + bytes, log.serial + 1⟩) else e
      disk := log.disk + bytes },
    [.write segment (log.serial + 1, data)])

def writeRecord (data : Str) : Except Fault (Location × Log × List FileOp) :=
  match frame (log.serial + 1) data with
  | .error e => .error e
  | .ok bytes =>
    if bytes.length > limits.maxDiskBytes ∨ log.disk > limits.maxDiskBytes - bytes.length then
      .error .quotaExhausted
    else
      let (log, closing) := log.rotate limits bytes.length
      let (segment, log, opening) := log.openSegment
      let (location, log, writing) := log.put segment bytes.length data
      .ok (location, log, closing ++ opening ++ writing)

/-- The segments that `prune_segments` removes. -/
def reclaimable (cut : Nat) (retained : List Nat) (e : Nat × Segment) : Bool :=
  decide (some e.1 ≠ log.active) && decide (e.2.last ≤ cut) && !retained.contains e.1

def pruneSegments (cut : Nat) (retained : List Nat) : Log × List FileOp :=
  let gone := log.segments.filter (log.reclaimable cut retained)
  ({ log with
      segments := log.segments.filter fun e => !log.reclaimable cut retained e
      disk := log.disk - (gone.map (·.2.size)).sum },
    gone.map (fun e => .unlink e.1) ++ if gone = [] then [] else [.syncDirectory])

def perform : Entry → Except Fault (Log × List FileOp)
  | .record data => (log.writeRecord limits data).map (·.2)
  | .seal => .ok log.closeSegment
  | .reclaim cut retained => .ok (log.pruneSegments cut retained)

/-! ## What writing leaves alone -/

structure SameCounters (log log' : Log) : Prop where
  serial : log'.serial = log.serial
  disk : log'.disk = log.disk
  reserved : log'.reserved = log.reserved
  queue : log'.queue = log.queue
  failed : log'.failed = log.failed

variable {limits log}

theorem SameCounters.refl : SameCounters log log := ⟨rfl, rfl, rfl, rfl, rfl⟩

theorem SameCounters.trans {log₁ log₂ log₃} (h : SameCounters log₁ log₂)
    (h' : SameCounters log₂ log₃) : SameCounters log₁ log₃ :=
  ⟨h'.serial.trans h.serial, h'.disk.trans h.disk, h'.reserved.trans h.reserved,
    h'.queue.trans h.queue, h'.failed.trans h.failed⟩

theorem sameCounters_closeSegment : SameCounters log log.closeSegment.1 := by
  unfold closeSegment
  split <;> exact ⟨rfl, rfl, rfl, rfl, rfl⟩

theorem sameCounters_rotate (bytes : Nat) : SameCounters log (log.rotate limits bytes).1 := by
  unfold rotate
  split
  · exact sameCounters_closeSegment
  · exact .refl

theorem sameCounters_openSegment : SameCounters log log.openSegment.2.1 := by
  unfold openSegment
  split <;> exact ⟨rfl, rfl, rfl, rfl, rfl⟩

def prepared (limits : Limits) (log : Log) (data : Str) : Nat × Log × List FileOp :=
  (log.rotate limits (headerSize + data.length)).1.openSegment

variable {data : Str}

theorem writeRecord_ok {location log' ops}
    (h : log.writeRecord limits data = .ok (location, log', ops)) :
    (data ≠ [] ∧ data.length ≤ maxRecord) ∧
      log.disk + (headerSize + data.length) ≤ limits.maxDiskBytes ∧
      (location, log', ops) =
        let put := (prepared limits log data).2.1.put (prepared limits log data).1
          (headerSize + data.length) data
        (put.1, put.2.1, (log.rotate limits (headerSize + data.length)).2 ++
          (prepared limits log data).2.2 ++ put.2.2) := by
  unfold writeRecord at h
  by_cases hsize : data = [] ∨ data.length > maxRecord
  · rw [frame, if_pos hsize] at h
    cases h
  obtain ⟨hne, hmax⟩ := not_or.1 hsize
  rw [frame_ok hne (Nat.not_lt.1 hmax)] at h
  dsimp only at h
  rw [length_frameBytes] at h
  split_ifs at h with hquota
  refine ⟨⟨hne, Nat.not_lt.1 hmax⟩, ?_, (Except.ok.inj h).symm⟩
  obtain ⟨h₁, h₂⟩ := not_or.1 hquota
  omega

theorem writeRecord_isOk (hne : data ≠ []) (hmax : data.length ≤ maxRecord)
    (hquota : log.disk + (headerSize + data.length) ≤ limits.maxDiskBytes) :
    ∃ r, log.writeRecord limits data = .ok r := by
  unfold writeRecord
  rw [frame_ok hne hmax]
  dsimp only
  rw [length_frameBytes, if_neg (by omega)]
  exact ⟨_, rfl⟩

theorem sameCounters_prepared (data : Str) : SameCounters log (prepared limits log data).2.1 :=
  (sameCounters_rotate _).trans sameCounters_openSegment

theorem writeRecord_counters {location log' ops}
    (h : log.writeRecord limits data = .ok (location, log', ops)) :
    location.serial = log.serial + 1 ∧ log'.serial = log.serial + 1 ∧
      log'.disk = log.disk + (headerSize + data.length) ∧ log'.reserved = log.reserved ∧
      log'.queue = log.queue ∧ log'.failed = log.failed := by
  obtain ⟨-, -, h⟩ := writeRecord_ok h
  have hsame := @sameCounters_prepared limits log data
  obtain ⟨rfl, rfl, -⟩ : _ ∧ _ ∧ _ := by simpa only [Prod.mk.injEq] using h
  exact ⟨congrArg (· + 1) hsame.serial, congrArg (· + 1) hsame.serial,
    congrArg (· + (headerSize + data.length)) hsame.disk, hsame.reserved, hsame.queue, hsame.failed⟩

end Log

theorem perform_record_ok {log log' : Log} {limits data ops}
    (hp : log.perform limits (.record data) = .ok (log', ops)) :
    ∃ location, log.writeRecord limits data = .ok (location, log', ops) := by
  simp only [Log.perform] at hp
  cases hw : log.writeRecord limits data with
  | error f =>
    rw [hw] at hp
    cases hp
  | ok r =>
    rw [hw] at hp
    obtain ⟨location, log₁, ops₁⟩ := r
    cases hp
    exact ⟨location, rfl⟩

theorem perform_counters {log log' : Log} {limits e ops}
    (hp : log.perform limits e = .ok (log', ops)) :
    log'.queue = log.queue ∧ log'.reserved = log.reserved ∧ log'.failed = log.failed ∧
      log.serial ≤ log'.serial ∧ log'.disk ≤ log.disk + e.reservation := by
  cases e with
  | record data =>
    obtain ⟨location, hw⟩ := perform_record_ok hp
    obtain ⟨-, hserial, hdisk, hreserved, hqueue, hfailed⟩ := Log.writeRecord_counters hw
    refine ⟨hqueue, hreserved, hfailed, by omega, ?_⟩
    rw [hdisk, Entry.reservation]
    omega
  | «seal» =>
    obtain ⟨rfl, -⟩ := Prod.mk.inj (Except.ok.inj hp).symm
    have hsame := @Log.sameCounters_closeSegment log
    exact ⟨hsame.queue, hsame.reserved, hsame.failed, Nat.le_of_eq hsame.serial.symm,
      Nat.le_of_eq hsame.disk⟩
  | reclaim cut retained =>
    obtain ⟨rfl, -⟩ := Prod.mk.inj (Except.ok.inj hp).symm
    exact ⟨rfl, rfl, rfl, Nat.le_refl _, Nat.sub_le _ _⟩

/-! ## The worker -/

def takeMore : Nat → List Entry → List Entry × List Entry
  | 0, queue => ([], queue)
  | _ + 1, [] => ([], [])
  | n + 1, e :: queue =>
    if e.alone then ([], e :: queue) else ((e :: (takeMore n queue).1), (takeMore n queue).2)

def takeBatch : List Entry → List Entry × List Entry
  | [] => ([], [])
  | e :: queue =>
    if e.alone then ([e], queue) else ((e :: (takeMore 63 queue).1), (takeMore 63 queue).2)

theorem takeMore_append (n : Nat) (queue : List Entry) :
    (takeMore n queue).1 ++ (takeMore n queue).2 = queue := by
  induction n generalizing queue with
  | zero => rfl
  | succ n ih =>
    cases queue with
    | nil => rfl
    | cons e queue =>
      rw [takeMore]
      split
      · rfl
      · rw [List.cons_append, ih]

theorem takeBatch_append (queue : List Entry) :
    (takeBatch queue).1 ++ (takeBatch queue).2 = queue := by
  cases queue with
  | nil => rfl
  | cons e queue =>
    rw [takeBatch]
    split
    · rfl
    · rw [List.cons_append, takeMore_append]

inductive Worker where
  | idle
  /-- The entries of the batch that have been performed, and those that have not. -/
  | writing (performed todo : List Entry)
  /-- The entries whose callbacks are still to come, with the outcome of the batch. -/
  | finishing (entries : List Entry) (ok : Bool)
  deriving DecidableEq

def Worker.todo : Worker → List Entry
  | .writing _ todo => todo
  | _ => []

/-- The running log. -/
structure Process where
  log : Log := {}
  files : Directory := []
  worker : Worker := .idle
  /-- The largest cut of the prunes so far, or a later fence of a replay. -/
  floor : Nat := 0
  deriving DecidableEq

/-- One step of a caller or of the worker. -/
inductive Event where
  | append (data : Str)
  | seal
  | prune (cut : Nat) (retained : List Nat)
  | take
  | write
  | commit
  | finish
  /-- A stop after `count` further file operations, and a new log on what is left. -/
  | reopen (count : Nat) (kept : List (Option Nat)) (after : Nat)
  deriving DecidableEq

namespace Process

variable (limits : Limits) (s : Process)

def commitOps (performed : List Entry) : List FileOp :=
  match s.log.active, performed with
  | none, _ => []
  | some _, .reclaim .. :: _ => []
  | some segment, _ => [.sync segment]

def nextOps : List FileOp :=
  match s.worker with
  | .writing _ (e :: _) =>
    match s.log.perform limits e with
    | .ok (_, ops) => ops
    | .error _ => []
  | .writing performed [] => s.commitOps performed
  | _ => []

def filesAt (count : Nat) : Directory := s.files.performAll ((s.nextOps limits).take count)

def floorAt (count : Nat) : Nat :=
  match s.worker with
  | .writing _ (.reclaim cut _ :: _) => if count = 0 then s.floor else max s.floor cut
  | _ => s.floor

def repaired (d : Directory) : Directory :=
  d.map fun e =>
    let records := fitting e.2.bytes.length e.2.records
    (e.1, { records := records, bytes := frames records, synced := (frames records).length })

def write (performed todo : List Entry) (e : Entry) : Process :=
  match s.log.perform limits e with
  | .ok (log, ops) =>
    { log := log
      files := s.files.performAll ops
      worker := .writing (performed ++ [e]) todo
      floor := match e with | .reclaim cut _ => max s.floor cut | _ => s.floor }
  | .error _ =>
    { s with
      log := { s.log with failed := true }
      worker := .finishing (performed ++ e :: todo) false }

def reopen (floor : Nat) (d : Directory) (after : Nat) : Option Process :=
  match recover d.listing with
  | .error _ => none
  | .ok (log, listing) =>
    match log.replay listing after with
    | .error _ => none
    | .ok (_, log') =>
      some
        { log := log', files := repaired d, floor := if log.serial < after then after else floor }

def step : Event → Option Process
  | .append data =>
    match s.log.append limits data with
    | .ok log => some { s with log := log }
    | .error _ => none
  | .seal => some { s with log := { s.log with queue := s.log.queue ++ [.seal] } }
  | .prune cut retained =>
    if cut ≤ s.log.serial then
      some { s with log := { s.log with queue := s.log.queue ++ [.reclaim cut retained] } }
    else none
  | .take =>
    if s.worker = .idle ∧ s.log.queue ≠ [] then
      let (batch, queue) := takeBatch s.log.queue
      some
        { s with
          log := { s.log with queue := queue }
          worker := if s.log.failed then .finishing batch false else .writing [] batch }
    else none
  | .write =>
    match s.worker with
    | .writing performed (e :: todo) => some (s.write limits performed todo e)
    | _ => none
  | .commit =>
    match s.worker with
    | .writing performed [] =>
      some
        { s with
          files := s.files.performAll (s.commitOps performed)
          worker := .finishing performed true }
    | _ => none
  | .finish =>
    match s.worker with
    | .finishing (e :: rest) ok =>
      some
        { s with
          log := { s.log with reserved := s.log.reserved - e.reservation }
          worker := if rest = [] then .idle else .finishing rest ok }
    | _ => none
  | .reopen count kept after =>
    if s.floorAt count ≤ after then
      ((s.filesAt limits count).crash kept).bind fun d => reopen (s.floorAt count) d after
    else none

end Process

abbrev Reachable (limits : Limits) (ok : Process → Event → Prop) : Process → Prop :=
  Runs.Reach (Process.step limits) ok fun s => s = {}

end Mqtts.Journal

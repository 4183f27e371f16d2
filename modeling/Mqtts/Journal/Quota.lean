import Mqtts.Durable.Ops
import Mqtts.Journal.Replay

/-!
# What the append log takes it can write

`append` reserves the framed size of a record against the quota of the log, and the worker takes it
off only when the record's callback has run, so `write_record` never finds the quota exhausted. The
size of one record is bounded in two places: the store admits requests up to its
`max_request_bytes`, which has no upper limit, and `frame` refuses a record of more than 64 MiB. A
record between the two makes the log fail for good (`largeRecord_fails`); without such records it
never fails.
-/

namespace Mqtts.Journal

open List Worker Process Entry Durable

open Durable (Config LogName Store Job)

/-! ## The logs of the store -/

def logLimits (cfg : Config) : LogName → Limits
  | .message _ | .state _ =>
    ⟨cfg.segmentBytes, (cfg.maxDiskBytes - cfg.maxDiskBytes / 4 - cfg.maxDiskBytes / 32 -
      2 * (cfg.maxDiskBytes / 32)) / (2 * cfg.partitions)⟩
  | .retain => ⟨cfg.segmentBytes, cfg.maxDiskBytes / 32⟩

/-- The store hands this record to a log: `enqueue` lets it pass in some state. -/
def Admitted (cfg : Config) (data : Str) : Prop :=
  ∃ (store : Store) (job : Job), job.record.encode = data ∧ store.admission cfg .taken job.size =
    none

theorem encode_ne_nil (r : Durable.Record) : r.encode ≠ [] := by
  cases r with
  | control r => simp [Durable.Record.encode, Durable.ControlRecord.encode, Codec.putByte]
  | message r => simp [Durable.Record.encode, Durable.MessageRecord.encode, Codec.putByte]
  | retainSet r => simp [Durable.Record.encode, putRetainSet, Codec.putByte]
  | retainClear topic => simp [Durable.Record.encode, putRetainClear, Codec.putByte]

/-! ## Reservations -/

def reserved (entries : List Entry) : Nat := (entries.map reservation).sum

@[simp] theorem reserved_nil : reserved [] = 0 := rfl

@[simp] theorem reserved_cons (e : Entry) (entries : List Entry) :
    reserved (e :: entries) = e.reservation + reserved entries := by
  simp [reserved]

@[simp] theorem reserved_append (entries entries' : List Entry) :
    reserved (entries ++ entries') = reserved entries + reserved entries' := by
  simp [reserved]

def Worker.entries : Worker → List Entry
  | .idle => []
  | .writing performed todo => performed ++ todo
  | .finishing entries _ => entries

/-- What is on disk and what is still to be written fit the quota together. -/
structure Room (limits : Limits) (s : Process) : Prop where
  reserved_eq : s.log.reserved = reserved (s.worker.entries ++ s.log.queue)
  room : reserved (s.worker.todo ++ s.log.queue) = 0 ∨
    s.log.disk + reserved (s.worker.todo ++ s.log.queue) ≤ limits.maxDiskBytes

theorem reserved_todo_le (w : Worker) : reserved w.todo ≤ reserved w.entries := by
  cases w with
  | idle => exact Nat.le_refl _
  | writing performed todo =>
    simp only [Worker.todo, Worker.entries, reserved_append]
    omega
  | finishing entries ok => exact Nat.zero_le _

theorem reserved_takeBatch (queue : List Entry) :
    reserved (takeBatch queue).1 + reserved (takeBatch queue).2 = reserved queue := by
  rw [← reserved_append, takeBatch_append]

theorem room_start (limits : Limits) : Room limits {} := ⟨rfl, Or.inl rfl⟩

theorem recoverFrom_frame {d log log' d'} (h : recoverFrom d log = .ok (log', d')) :
    log'.reserved = log.reserved ∧ log'.queue = log.queue ∧ log'.failed = log.failed := by
  induction d generalizing log d' with
  | nil =>
    obtain ⟨rfl, -⟩ := Prod.mk.inj (Except.ok.inj h)
    exact ⟨rfl, rfl, rfl⟩
  | cons e d ih =>
    obtain ⟨segment, bytes⟩ := e
    rw [recoverFrom] at h
    split at h
    · cases h
    split at h
    · cases h
    rename_i hrest
    obtain ⟨rfl, -⟩ := Prod.mk.inj (Except.ok.inj h)
    have hframe := ih hrest
    exact hframe

variable {s : Process} {limits : Limits} {data : Str} {performed todo : List Entry}

theorem reopen_frame {floor after d} (h : reopen floor d after = some s) :
    s.log.reserved = 0 ∧ s.log.queue = [] ∧ s.log.failed = false ∧ s.worker = .idle := by
  unfold reopen at h
  split at h
  · cases h
  rename_i log listing hrecover
  have hframe : log.reserved = 0 ∧ log.queue = [] ∧ log.failed = false := by
    unfold recover at hrecover
    split at hrecover
    · cases hrecover
    · exact recoverFrom_frame hrecover
  unfold Log.replay at h
  split at h
  · cases h
  rename_i hreplay
  split at hreplay <;> cases hreplay
  cases h
  exact ⟨hframe.1, hframe.2.1, hframe.2.2, rfl⟩

theorem append_ok {log log' : Log} (h : log.append limits data = .ok log') : log.failed = false ∧
      log.disk + log.reserved + (data.length + headerSize) ≤ limits.maxDiskBytes ∧
      log' = { log with
        queue := log.queue ++ [.record data]
        reserved := log.reserved + (data.length + headerSize) } := by
  unfold Log.append at h
  dsimp only at h
  split at h
  · cases h
  · split at h <;> cases h
    rename_i hfailed hquota
    exact ⟨by simpa using hfailed, by omega, rfl⟩

theorem Room.record (h : Room limits s)
    (hw : s.worker = .writing performed (.record data :: todo)) :
    s.log.disk + (headerSize + data.length) ≤ limits.maxDiskBytes := by
  have hroom := h.room
  rw [hw] at hroom
  simp only [Worker.todo, cons_append, reserved_cons, reservation, headerSize] at hroom ⊢
  omega

theorem Room.write (h : Room limits s) {e} (hw : s.worker = .writing performed (e :: todo)) :
    Room limits (s.write limits performed todo e) := by
  have hreserved := h.reserved_eq
  have hroom := h.room
  rw [hw] at hreserved hroom
  simp only [Worker.entries, Worker.todo, cons_append, reserved_append, reserved_cons]
    at hreserved hroom
  unfold Process.write
  split
  · rename_i log' ops hp
    obtain ⟨hqueue, hres, -, -, hdisk⟩ := perform_counters hp
    constructor
    · simp only [entries, reserved_append, reserved_cons, reserved_nil, hqueue, hres]
      omega
    · simp only [Worker.todo, reserved_append, hqueue]
      omega
  · constructor
    · simp only [entries, reserved_append, reserved_cons]
      omega
    · simp only [Worker.todo, nil_append]
      omega

/-- Every step keeps the room. -/
theorem Room.step {s'} {e : Event} (h : Room limits s) (hs : s.step limits e = some s') :
    Room limits s' := by
  have hreserved := h.reserved_eq
  have hroom := h.room
  have htodo := reserved_todo_le s.worker
  rw [reserved_append] at hreserved hroom
  cases e <;> simp only [Process.step] at hs
  case append data =>
    split at hs <;> cases hs
    rename_i log hlog
    obtain ⟨-, hquota, rfl⟩ := append_ok hlog
    constructor <;> simp only [reserved_append, reserved_cons, reserved_nil, reservation]
    · omega
    · omega
  case «seal» =>
    cases hs
    constructor
    · simpa [reservation] using hreserved
    · simpa [reservation] using hroom
  case prune cut retained =>
    split at hs <;> cases hs
    constructor
    · simpa [reservation] using hreserved
    · simpa [reservation] using hroom
  case take =>
    split at hs <;> cases hs
    rename_i hidle
    have hbatch := reserved_takeBatch s.log.queue
    rw [hidle.1] at hreserved hroom
    simp only [entries, todo, reserved_nil, Nat.zero_add] at hreserved hroom
    constructor <;> simp only [reserved_append]
    · split
      · simp only [entries]
        omega
      · simp only [entries, nil_append]
        omega
    · split
      · simp only [todo, reserved_nil]
        omega
      · simp only [todo]
        omega
  case write =>
    split at hs <;> cases hs
    rename_i hw
    exact h.write hw
  case commit =>
    split at hs <;> cases hs
    rename_i hw
    rw [hw] at hreserved hroom
    constructor
    · simpa [entries] using hreserved
    · simpa [todo] using hroom
  case finish =>
    split at hs <;> cases hs
    rename_i e rest ok hw
    rw [hw] at hreserved hroom
    simp only [entries, todo, reserved_cons, reserved_nil, Nat.zero_add] at hreserved hroom
    constructor <;> simp only [reserved_append]
    · split
      · rename_i hrest
        simp only [hrest, reserved_nil] at hreserved
        simp only [entries, reserved_nil]
        omega
      · simp only [entries]
        omega
    · split <;> simpa only [todo, reserved_nil, Nat.zero_add] using hroom
  case reopen count kept after =>
    split at hs
    · obtain ⟨d, -, hs⟩ := Option.bind_eq_some_iff.1 hs
      obtain ⟨hres, hqueue, -, hworker⟩ := reopen_frame hs
      constructor
      · simp [hres, hqueue, hworker, entries]
      · simp [hqueue, hworker, todo]
    · cases hs

/-- In no run does the worker find the quota exhausted by what `append` took. -/
theorem quota_suffices {ok} (h : Reachable limits ok s)
    (hw : s.worker = .writing performed (.record data :: todo)) :
    s.log.writeRecord limits data ≠ .error .quotaExhausted := by
  have hroom : Room limits s :=
    h.invariant (fun _ hs => hs ▸ room_start limits) fun _ _ _ hr _ hs => hr.step hs
  have hrecord := hroom.record hw
  by_cases hframe : data = [] ∨ data.length > maxRecord
  · rw [Log.writeRecord, frame, if_pos hframe]
    rintro ⟨⟩
  · obtain ⟨hne, hmax⟩ := not_or.1 hframe
    obtain ⟨r, hr⟩ := Log.writeRecord_isOk hne (Nat.not_lt.1 hmax) hrecord
    rw [hr]
    rintro ⟨⟩

/-! ## Records that can be framed -/

def Framable (entries : List Entry) : Prop :=
  ∀ data, record data ∈ entries → data ≠ [] ∧ data.length ≤ maxRecord

structure Working (limits : Limits) (s : Process) : Prop where
  room : Room limits s
  framable : Framable (s.worker.todo ++ s.log.queue)
  failed : s.log.failed = false

theorem working_start (limits : Limits) : Working limits {} :=
  ⟨room_start limits, fun _ hm => by simp [todo] at hm, rfl⟩

theorem Framable.of_subset {entries entries'} (h : Framable entries)
    (hsub : ∀ e ∈ entries', e ∈ entries) : Framable entries' :=
  fun data hm => h data (hsub _ hm)

theorem Working.perform (h : Working limits s) {e}
    (hw : s.worker = .writing performed (e :: todo)) : ∃ r, s.log.perform limits e = .ok r := by
  cases e with
  | record data =>
    obtain ⟨hne, hmax⟩ := h.framable data (by simp [hw, Worker.todo])
    obtain ⟨r, hr⟩ := Log.writeRecord_isOk hne hmax (h.room.record hw)
    exact ⟨r.2, by rw [Log.perform, hr]; rfl⟩
  | «seal» => exact ⟨_, rfl⟩
  | reclaim cut retained => exact ⟨_, rfl⟩

def FramedAppends (cfg : Config) (_ : Process) (e : Event) : Prop :=
  ∀ data, e = .append data → Admitted cfg data ∧ data.length ≤ maxRecord

theorem Working.step {cfg s'} {e : Event} (h : Working limits s)
    (hok : FramedAppends cfg s e) (hs : s.step limits e = some s') : Working limits s' := by
  suffices hrest : Framable (s'.worker.todo ++ s'.log.queue) ∧ s'.log.failed = false from
    ⟨h.room.step hs, hrest.1, hrest.2⟩
  have hframable := h.framable
  cases e <;> simp only [Process.step] at hs
  case append data =>
    split at hs <;> cases hs
    rename_i log hlog
    obtain ⟨hfailed, -, rfl⟩ := append_ok hlog
    refine ⟨fun data' hm => ?_, hfailed⟩
    rw [← append_assoc] at hm
    rcases mem_append.1 hm with hm | hm
    · exact hframable data' hm
    · obtain rfl : data' = data := by simpa using hm
      obtain ⟨⟨-, job, rfl, -⟩, hmax⟩ := hok data' rfl
      exact ⟨encode_ne_nil _, hmax⟩
  case «seal» =>
    cases hs
    exact ⟨fun data hm => hframable data (by simpa [← append_assoc] using hm), h.failed⟩
  case prune cut retained =>
    split at hs <;> cases hs
    exact ⟨fun data hm => hframable data (by simpa [← append_assoc] using hm), h.failed⟩
  case take =>
    split at hs <;> cases hs
    refine ⟨hframable.of_subset fun e he => ?_, h.failed⟩
    rw [h.failed] at he
    have hbatch := takeBatch_append s.log.queue
    rw [← hbatch]
    exact mem_append_right _ he
  case write =>
    split at hs <;> cases hs
    rename_i performed e todo hw
    obtain ⟨⟨log', ops⟩, hp⟩ := h.perform hw
    obtain ⟨hqueue, -, hfailed, -, -⟩ := perform_counters hp
    rw [hw] at hframable
    simp only [write, hp]
    refine ⟨hframable.of_subset fun e' he' => ?_, hfailed.trans h.failed⟩
    rw [hqueue] at he'
    simp only [Worker.todo, mem_append, mem_cons] at he' ⊢
    tauto
  case commit =>
    split at hs <;> cases hs
    exact ⟨hframable.of_subset fun e he => mem_append_right _ he, h.failed⟩
  case finish =>
    split at hs <;> cases hs
    refine ⟨hframable.of_subset fun e he => mem_append_right _ ?_, h.failed⟩
    rcases mem_append.1 he with he | he
    · dsimp only at he
      split at he <;> simp [todo] at he
    · exact he
  case reopen count kept after =>
    split at hs
    · obtain ⟨d, -, hs⟩ := Option.bind_eq_some_iff.1 hs
      obtain ⟨-, hqueue, hfailed, hworker⟩ := reopen_frame hs
      exact ⟨fun data hm => by simp [hqueue, hworker, todo] at hm, hfailed⟩
    · cases hs

/-- In every run in which the records that a log takes from the store are not larger than a
frame holds, the log does not fail, and the worker writes every record that it comes to. -/
theorem never_fails {cfg name s} (h : Reachable (logLimits cfg name) (FramedAppends cfg) s) :
    s.log.failed = false ∧
      ∀ performed todo data, s.worker = .writing performed (.record data :: todo) →
        ∃ r, s.log.writeRecord (logLimits cfg name) data = .ok r := by
  have hworking : Working (logLimits cfg name) s :=
    h.invariant (fun _ hs => hs ▸ working_start _) fun _ _ _ hw hok => hw.step hok
  refine ⟨hworking.failed, fun performed todo data hw => ?_⟩
  obtain ⟨hne, hmax⟩ := hworking.framable data (by simp [hw, Worker.todo])
  exact Log.writeRecord_isOk hne hmax (hworking.room.record hw)

theorem admitted_of_length {cfg} {r : Durable.Record}
    (hlen : r.encode.length + 256 ≤ cfg.maxRequestBytes) (hrequests : cfg.maxRequests ≠ 0) :
    Admitted cfg r.encode := by
  refine ⟨{}, ⟨r, .ack ⟨[], 0⟩ 0, {}⟩, rfl, ?_⟩
  have hsize : ¬ (r.encode.length + 256 > cfg.maxRequestBytes) := by omega
  simp [Store.admission, Job.size, hrequests]
  omega

/-- The smallest segments that the program accepts. -/
def smallSegments : Config := { segmentBytes := 4096 }

/-- Two long records and a short one of the retained messages: the third opens a segment. -/
def rotatingRun : List Event :=
  let long := putRetainClear (replicate 2100 0x61)
  [.append long, .append (putRetainClear [0x62]), .append long, .take, .write, .write, .write,
    .commit]

def rotatedLog : Process :=
  (Runs.runOk (step (logLimits smallSegments .retain)) (fun _ e => e ∈ rotatingRun) {}
    rotatingRun).getD {}

theorem framedAppends_clear {topic : Str} (h : topic.length ≤ 2100) (s : Process) :
    FramedAppends smallSegments s (.append (putRetainClear topic)) := by
  have hlength : (putRetainClear topic).length = topic.length + 6 := by
    simp [putRetainClear]
    omega
  rintro _ ⟨⟩
  refine ⟨admitted_of_length (r := .retainClear topic) ?_ (by decide), ?_⟩
  · rw [Durable.Record.encode, hlength, smallSegments]
    dsimp only
    omega
  · rw [hlength, maxRecord]
    omega

theorem never_fails_rotated : smallSegments.Accepted ∧ rotatedLog.log.serial = 3 ∧
    rotatedLog.log.segments.map (·.2.last) = [2, 3] ∧
      Reachable (logLimits smallSegments .retain) (FramedAppends smallSegments) rotatedLog ∧
      rotatedLog.log.failed = false := by
  have hlong : (replicate 2100 0x61 : Str).length ≤ 2100 := length_replicate.le
  have hframed : ∀ s e, e ∈ rotatingRun → FramedAppends smallSegments s e := by
    intro s e he
    simp only [rotatingRun, mem_cons, not_mem_nil, or_false] at he
    rcases he with rfl | rfl | rfl | rfl | rfl | rfl | rfl | rfl
    · exact framedAppends_clear hlong s
    · exact @framedAppends_clear [0x62] (by decide) s
    · exact framedAppends_clear hlong s
    all_goals exact fun _ h => nomatch h
  have hsome : (Runs.runOk (step (logLimits smallSegments .retain)) (fun _ e => e ∈ rotatingRun) {}
      rotatingRun).isSome := by
    decide +kernel
  have hstart : Reachable (logLimits smallSegments .retain) (fun _ e => e ∈ rotatingRun) {} :=
    .start rfl
  have hreach : Reachable (logLimits smallSegments .retain) (FramedAppends smallSegments)
      rotatedLog := by
    obtain ⟨s, hs⟩ := Option.isSome_iff_exists.1 hsome
    rw [rotatedLog, hs]
    exact (Runs.reach_runOk hstart hs).mono hframed
  exact ⟨by decide, by decide +kernel, by decide +kernel, hreach, (never_fails hreach).1⟩

/-! ## A record that is too large -/

/-- A record that is larger than a frame holds and fits the quota is taken, and makes the log
fail. -/
theorem fails_of_large {ok : Process → Event → Prop}
    (hok : ∀ s, ok s (.append data) ∧ ok s .take ∧ ok s .write) (hlarge : maxRecord < data.length)
    (hquota : data.length + headerSize ≤ limits.maxDiskBytes) :
    ∃ s, Reachable limits ok s ∧ s.log.failed := by
  have happend : ({} : Log).append limits data =
      .ok { queue := [.record data], reserved := 0 + (data.length + headerSize) } := by
    simp only [Log.append, Bool.false_eq_true, if_false]
    rw [if_neg (by omega)]
    rfl
  have hwrite : ∀ log : Log, log.perform limits (.record data) = .error .invalidRecordSize := by
    intro log
    simp only [Log.perform, Log.writeRecord, frame, if_pos (show _ ∨ _ from Or.inr hlarge)]
    rfl
  have h₀ : Reachable limits ok {} := .start rfl
  have h₁ : Reachable limits ok
      { log := { queue := [.record data], reserved := 0 + (data.length + headerSize) } } := by
    refine h₀.step (hok _).1 ?_
    simp only [step, happend]
  have h₂ := h₁.step (hok _).2.1 rfl
  refine ⟨_, h₂.step (hok _).2.2 rfl, ?_⟩
  simp only [write, hwrite]

/-- A configuration with a larger `max_request_bytes` than the default. -/
def largeRequests : Config := { maxRequestBytes := 128 * 1024 * 1024 }

/-- A retained message of QoS 0 to the topic `a`. -/
def retainedRecord (payload : Str) : Durable.Record :=
  .retainSet ⟨[0x61], 0, 0, payload, [0x63], false, 0, [], [], [], []⟩

theorem length_retainedRecord (payload : Str) :
    (retainedRecord payload).encode.length = payload.length + 26 := by
  simp [retainedRecord, Durable.Record.encode, putRetainSet, putRetainFields, putRetainProperties]
  omega

def largeRecord : Durable.Record := retainedRecord (replicate maxRecord 0x62)

theorem length_largeRecord : largeRecord.encode.length = maxRecord + 26 := by
  rw [largeRecord, length_retainedRecord, length_replicate]

/-- The log of the retained messages takes the record, and fails for good when its worker comes
to it. -/
theorem largeRecord_fails : largeRequests.Accepted ∧ Admitted largeRequests largeRecord.encode ∧
      ∃ s, Reachable (logLimits largeRequests .retain)
          (fun _ e => ∀ data, e = .append data → Admitted largeRequests data) s ∧
        s.log.failed := by
  have hadmitted : Admitted largeRequests largeRecord.encode := by
    refine admitted_of_length ?_ (by decide)
    rw [length_largeRecord]
    decide
  have hquota : (logLimits largeRequests .retain).maxDiskBytes = 134217728 := by decide
  refine ⟨by decide, hadmitted, fails_of_large
    (fun s => ⟨fun data hdata => Event.append.inj hdata ▸ hadmitted, (fun _ hdata => nomatch hdata),
      (fun _ hdata => nomatch hdata)⟩) ?_ ?_⟩
  · rw [length_largeRecord]
    omega
  · rw [hquota, length_largeRecord]
    decide

end Mqtts.Journal

import Mathlib.Data.List.Flatten
import Mathlib.Data.List.Nodup
import Mqtts.Journal.AppendLog

/-!
# Recovery and replay of a directory

A directory that a stop has left holds whole frames in every file but the last, which may be cut at
any byte.
-/

namespace Mqtts.Journal

open List Directory Process

/-! ## Serials -/

theorem lastSerial_append (last : Nat) (rs rs' : List LogRecord) :
    lastSerial last (rs ++ rs') = lastSerial (lastSerial last rs) rs' := by
  induction rs generalizing last with
  | nil => rfl
  | cons r rs ih => rw [cons_append, lastSerial_cons, lastSerial_cons, ih]

variable {last floor after n : Nat} {rs : List LogRecord} {e : Nat × File} {d : Directory}

theorem pairwise_lastSerial {serials} (h : (last :: (rs.map (·.1) ++ serials)).Pairwise (· < ·)) :
    (lastSerial last rs :: serials).Pairwise (· < ·) := by
  induction rs generalizing last with
  | nil => exact h
  | cons r rs ih =>
    rw [lastSerial_cons]
    exact ih (pairwise_cons.1 h).2

theorem lastSerial_le {bound} (h : ∀ r ∈ rs, r.1 ≤ bound) (hlast : last ≤ bound) :
    lastSerial last rs ≤ bound := by
  induction rs generalizing last with
  | nil => exact hlast
  | cons r rs ih =>
    rw [lastSerial_cons]
    exact ih (fun r hr => h r (mem_cons_of_mem _ hr)) (h r mem_cons_self)

theorem le_lastSerial (hinc : (last :: rs.map (·.1)).Pairwise (· < ·)) :
    last ≤ lastSerial last rs ∧ ∀ r ∈ rs, r.1 ≤ lastSerial last rs := by
  induction rs generalizing last with
  | nil => exact ⟨le_refl _, by simp⟩
  | cons r rs ih =>
    rw [map_cons, pairwise_cons] at hinc
    obtain ⟨hr, hrs⟩ := ih hinc.2
    have hlast := hinc.1 r.1 mem_cons_self
    rw [lastSerial_cons]
    refine ⟨by omega, fun r' hr' => ?_⟩
    rcases mem_cons.1 hr' with rfl | hr'
    · exact hr
    · exact hrs r' hr'

theorem filter_range' (h : floor ≤ after) :
    (List.range' (floor + 1) n).filter (fun x => decide (after < x)) =
      List.range' (after + 1) (floor + n - after) := by
  induction n with
  | zero =>
    have hcount : floor + 0 - after = 0 := by omega
    rw [hcount]
    rfl
  | succ n ih =>
    rw [List.range'_concat, filter_append, ih, one_mul]
    by_cases hlast : after < floor + 1 + n
    · have hcount : floor + (n + 1) - after = (floor + n - after) + 1 := by omega
      have hval : after + 1 + (floor + n - after) = floor + 1 + n := by omega
      rw [hcount, List.range'_concat, one_mul, hval]
      simp [hlast]
    · have hcount : floor + (n + 1) - after = floor + n - after := by omega
      simp [hlast, hcount]

def above (floor : Nat) (rs : List LogRecord) : List Nat :=
  (rs.map (·.1)).filter fun x => decide (floor < x)

theorem above_append (floor : Nat) (rs rs' : List LogRecord) :
    above floor (rs ++ rs') = above floor rs ++ above floor rs' := by
  simp [above]

theorem above_eq_nil (h : ∀ r ∈ rs, r.1 ≤ floor) : above floor rs = [] := by
  rw [above, filter_eq_nil_iff]
  intro x hx
  obtain ⟨r, hr, rfl⟩ := mem_map.1 hx
  simpa using h r hr

theorem above_of_le (h : above floor rs = List.range' (floor + 1) n) (hle : floor ≤ after) :
    above after rs = List.range' (after + 1) (floor + n - after) := by
  rw [← filter_range' hle, ← h, above, above, filter_filter]
  refine filter_congr fun x _ => ?_
  by_cases hx : after < x
  · have : floor < x := by omega
    simp [hx, this]
  · simp [hx]

/-! ## What a stop leaves -/

def recordsOf (d : Directory) : List LogRecord := d.flatMap (·.2.records)

/-- The records whose frames are complete. -/
def survivors (d : Directory) : List LogRecord :=
  d.flatMap fun e => fitting e.2.bytes.length e.2.records

def survivorsAt (d : Directory) : List (Location × Str) :=
  d.flatMap fun e => located e.1 0 (fitting e.2.bytes.length e.2.records)

@[simp] theorem recordsOf_cons (e : Nat × File) (d : Directory) :
    recordsOf (e :: d) = e.2.records ++ recordsOf d := rfl

@[simp] theorem recordsOf_append (d d' : Directory) :
    recordsOf (d ++ d') = recordsOf d ++ recordsOf d' := by
  simp [recordsOf]

@[simp] theorem survivors_cons (e : Nat × File) (d : Directory) :
    survivors (e :: d) = fitting e.2.bytes.length e.2.records ++ survivors d := rfl

@[simp] theorem survivorsAt_cons (e : Nat × File) (d : Directory) :
    survivorsAt (e :: d) =
      located e.1 0 (fitting e.2.bytes.length e.2.records) ++ survivorsAt d := rfl

theorem serials_located (segment offset : Nat) (rs : List LogRecord) :
    (located segment offset rs).map (·.1.serial) = rs.map (·.1) := by
  induction rs generalizing offset with
  | nil => rfl
  | cons r rs ih => simp [located, ih]

theorem serials_survivorsAt (d : Directory) :
    (survivorsAt d).map (·.1.serial) = (survivors d).map (·.1) := by
  induction d with
  | nil => rfl
  | cons e d ih => simp [serials_located, ih]

theorem fitting_sublist (n : Nat) (rs : List LogRecord) : (fitting n rs).Sublist rs := by
  obtain ⟨lost, h⟩ := fitting_prefix n rs
  have := sublist_append_left (fitting n rs) lost
  rwa [h] at this

theorem survivors_sublist (d : Directory) : (survivors d).Sublist (recordsOf d) := by
  induction d with
  | nil => exact List.Sublist.refl _
  | cons e d ih => exact (fitting_sublist _ _).append ih

/-- A directory that a stop has left: whole frames in every file but the last, which may be
cut at any byte. -/
structure Cut (d : Directory) : Prop where
  pos : ∀ e ∈ d, e.1 ≠ 0
  framed : ∀ e ∈ d, ∀ r ∈ e.2.records, Framed r
  bytes : ∀ e ∈ d, e.2.bytes = (frames e.2.records).take e.2.bytes.length
  whole : d.Pairwise fun e _ => e.2.bytes = frames e.2.records
  inc : ((recordsOf d).map (·.1)).Pairwise (· < ·)

theorem Cut.tail (h : Cut (e :: d)) : Cut d where
  pos e' he' := h.pos e' (mem_cons_of_mem _ he')
  framed e' he' := h.framed e' (mem_cons_of_mem _ he')
  bytes e' he' := h.bytes e' (mem_cons_of_mem _ he')
  whole := (pairwise_cons.1 h.whole).2
  inc := by
    have := h.inc
    rw [recordsOf_cons, map_append, pairwise_append] at this
    exact this.2.1

theorem Cut.scan {σ : Type} {visit : σ → Location → Str → Except Fault σ} (h : Cut (e :: d))
    {repairTail} (hrepair : d = [] → repairTail = true) (s : σ) :
    scan repairTail e.1 visit e.2.bytes s =
      ((located e.1 0 (fitting e.2.bytes.length e.2.records)).foldlM
        (fun s e => visit s e.1 e.2) s).map
          (fun s => ⟨s, (frames (fitting e.2.bytes.length e.2.records)).length,
            lastSerial 0 (fitting e.2.bytes.length e.2.records)⟩) := by
  have hinc : (e.2.records.map (·.1)).Pairwise (· < ·) := by
    have := h.inc
    rw [recordsOf_cons, map_append, pairwise_append] at this
    exact this.1
  have hn : repairTail ∨ (frames e.2.records).length ≤ e.2.bytes.length := by
    cases d with
    | nil => exact Or.inl (hrepair rfl)
    | cons e' d =>
      right
      exact le_of_eq (congrArg List.length ((pairwise_cons.1 h.whole).1 e' mem_cons_self).symm)
  have hscan : Journal.scan repairTail e.1 visit _ s = _ :=
    scan_take (h.framed e mem_cons_self) hinc hn s
  rwa [← h.bytes e mem_cons_self] at hscan

/-! ## Recovery and replay -/

theorem foldlM_recoverVisit {serial} (hinc : (serial :: rs.map (·.1)).Pairwise (· < ·))
    (segment offset : Nat) :
    (located segment offset rs).foldlM (fun s e => recoverVisit s e.1 e.2) serial =
      .ok (lastSerial serial rs) := by
  induction rs generalizing serial offset with
  | nil => rfl
  | cons r rs ih =>
    rw [map_cons] at hinc
    have hr : ¬ r.1 ≤ serial := not_le.2 ((pairwise_cons.1 hinc).1 _ mem_cons_self)
    have hvisit : recoverVisit serial ⟨segment, offset, r.1, r.2.length⟩ r.2 = .ok r.1 := by
      simp [recoverVisit, hr]
    rw [located, foldlM_cons, hvisit, lastSerial_cons]
    exact ih (pairwise_cons.1 hinc).2 _

def segmentOf (e : Nat × File) : Nat × Segment :=
  (e.1, ⟨e.2.bytes.length, lastSerial 0 e.2.records⟩)

def recoveredLog (log : Log) (d : Directory) : Log :=
  { log with
    serial := lastSerial log.serial (survivors d)
    segments := log.segments ++ (repaired d).map segmentOf
    disk := log.disk + ((repaired d).map (·.2.bytes.length)).sum }

theorem recoverFrom_cut (h : Cut d) {log}
    (hinc : (log.serial :: (survivors d).map (·.1)).Pairwise (· < ·)) :
    recoverFrom d.listing log = .ok (recoveredLog log d, (repaired d).listing) := by
  induction d generalizing log with
  | nil => simp [recoverFrom, listing, recoveredLog, repaired, survivors, lastSerial]
  | cons e d ih =>
    rw [survivors_cons, map_append] at hinc
    have hhead := hinc.sublist ((sublist_append_left _ _).cons_cons _)
    have hscan : scan (listing d).isEmpty e.1 recoverVisit e.2.bytes log.serial = _ :=
      h.scan (by rintro rfl; rfl) log.serial
    rw [foldlM_recoverVisit hhead] at hscan
    have hrest := @ih h.tail
      { log with
        serial := lastSerial log.serial (fitting e.2.bytes.length e.2.records)
        segments := log.segments ++ [(e.1, ⟨(frames (fitting e.2.bytes.length e.2.records)).length,
            lastSerial 0 (fitting e.2.bytes.length e.2.records)⟩)]
        disk := log.disk + (frames (fitting e.2.bytes.length e.2.records)).length }
      (pairwise_lastSerial hinc)
    have htake : e.2.bytes.take (frames (fitting e.2.bytes.length e.2.records)).length =
        frames (fitting e.2.bytes.length e.2.records) := by
      have hle := length_frames_fitting_le e.2.bytes.length e.2.records
      have hbytes := h.bytes e mem_cons_self
      generalize e.2.bytes.length = n at hle hbytes
      rw [hbytes, take_take, min_eq_left hle]
      exact take_frames_fitting _ _
    show recoverFrom ((e.1, e.2.bytes) :: listing d) log = _
    rw [recoverFrom, hscan]
    simp only [Except.map, hrest, htake]
    simp [recoveredLog, repaired, segmentOf, listing, lastSerial_append, add_assoc]

def freshSegment (d : Directory) : Nat := d.foldl (fun n e => max n (e.1 + 1)) 1

/-- What recovery makes of such a directory. -/
theorem recover_cut (h : Cut d) : recover d.listing =
      .ok (recoveredLog { nextSegment := freshSegment d } d, (repaired d).listing) := by
  have hzero : ¬ (d.listing.any fun e => e.1 == 0) := by
    simp only [listing, any_map, any_eq_true, Function.comp, beq_iff_eq, not_exists, not_and]
    exact fun e he => h.pos e he
  have hfresh : d.listing.foldl (fun n e => max n (e.1 + 1)) 1 = freshSegment d := by
    rw [listing, foldl_map, freshSegment]
  rw [recover, if_neg hzero, hfresh]
  refine recoverFrom_cut h (pairwise_cons.2 ⟨fun serial hs => ?_, ?_⟩)
  · obtain ⟨r, hr, rfl⟩ := mem_map.1 hs
    obtain ⟨e, he, hre⟩ := mem_flatMap.1 ((survivors_sublist d).subset hr)
    exact (h.framed e he r hre).serial_pos
  · exact h.inc.sublist ((survivors_sublist d).map _)

theorem fitting_frames_fitting (n : Nat) (rs : List LogRecord) :
    fitting (frames (fitting n rs)).length (fitting n rs) = fitting n rs :=
  fitting_of_length_le (le_refl _)

theorem repaired_repaired (d : Directory) : repaired (repaired d) = repaired d := by
  simp [repaired, fitting_frames_fitting]

theorem survivors_repaired (d : Directory) : survivors (repaired d) = survivors d := by
  simp [survivors, repaired, flatMap_map, fitting_frames_fitting]

theorem recordsOf_repaired (d : Directory) : recordsOf (repaired d) = survivors d := by
  simp [recordsOf, survivors, repaired, flatMap_map]

theorem survivorsAt_repaired (d : Directory) : survivorsAt (repaired d) = survivorsAt d := by
  simp [survivorsAt, repaired, flatMap_map, fitting_frames_fitting]

theorem freshSegment_repaired (d : Directory) : freshSegment (repaired d) = freshSegment d := by
  rw [freshSegment, freshSegment, repaired, foldl_map]

theorem mem_repaired (h : e ∈ repaired d) :
    ∃ e' ∈ d, e.1 = e'.1 ∧ e.2.records = fitting e'.2.bytes.length e'.2.records ∧
      e.2.bytes = frames e.2.records ∧ e.2.synced = e.2.bytes.length ∧ e.2.link = .linked := by
  obtain ⟨e', he', rfl⟩ := mem_map.1 h
  exact ⟨e', he', rfl, rfl, rfl, rfl, rfl⟩

theorem Cut.repaired (h : Cut d) : Cut (repaired d) where
  pos e he := by
    obtain ⟨e', he', hid, -⟩ := mem_repaired he
    rw [hid]
    exact h.pos e' he'
  framed e he r hr := by
    obtain ⟨e', he', -, hrecords, -⟩ := mem_repaired he
    rw [hrecords] at hr
    exact h.framed e' he' r ((fitting_sublist _ _).subset hr)
  bytes e he := by
    obtain ⟨e', he', -, -, hbytes, -⟩ := mem_repaired he
    rw [← hbytes, take_length]
  whole := by
    rw [Process.repaired, pairwise_map]
    exact h.whole.imp fun _ => rfl
  inc := by
    rw [recordsOf_repaired]
    exact h.inc.sublist ((survivors_sublist d).map _)

/-- A second recovery changes nothing. -/
theorem recover_repaired (h : Cut d) : recover (repaired d).listing =
      .ok (recoveredLog { nextSegment := freshSegment d } d, (repaired d).listing) := by
  rw [recover_cut h.repaired, freshSegment_repaired, repaired_repaired]
  simp only [recoveredLog, survivors_repaired, repaired_repaired]

theorem replayFrom_whole (h : Cut d) (hwhole : ∀ e ∈ d, e.2.bytes = frames e.2.records)
    (after : Nat) (r : Replayed) :
    replayFrom after d.listing r =
      (survivorsAt d).foldlM (fun r e => replayVisit after r e.1 e.2) r := by
  induction d generalizing r with
  | nil => rfl
  | cons e d ih =>
    have hinc : (e.2.records.map (·.1)).Pairwise (· < ·) := by
      have := h.inc
      rw [recordsOf_cons, map_append, pairwise_append] at this
      exact this.1
    have hbytes := hwhole e mem_cons_self
    have hscan : scan false e.1 (replayVisit after) _ r = _ :=
      scan_take (h.framed e mem_cons_self) hinc (n := e.2.bytes.length)
        (Or.inr (le_of_eq (congrArg List.length hbytes.symm))) r
    rw [← h.bytes e mem_cons_self] at hscan
    show replayFrom after ((e.1, e.2.bytes) :: listing d) r = _
    rw [replayFrom, hscan, survivorsAt_cons, foldlM_append]
    cases (located e.1 0 (fitting e.2.bytes.length e.2.records)).foldlM
        (fun r e => replayVisit after r e.1 e.2) r with
    | error f => rfl
    | ok r' => exact ih h.tail (fun e he => hwhole e (mem_cons_of_mem _ he)) r'

theorem foldlM_replayVisit {records : List (Location × Str)} {r}
    (h : (records.map (·.1.serial)).filter (fun x => decide (after < x)) = List.range' r.expected
    n) :
    records.foldlM (fun r e => replayVisit after r e.1 e.2) r =
      .ok { expected := r.expected + n
            visited := r.visited ++ records.filter (fun e => decide (after < e.1.serial)) } := by
  induction records generalizing r n with
  | nil =>
    obtain rfl : n = 0 := by simpa using h.symm
    simp [pure, Except.pure]
  | cons e records ih =>
    rw [foldlM_cons]
    by_cases hskip : e.1.serial ≤ after
    · have hvisit : replayVisit after r e.1 e.2 = .ok r := by simp [replayVisit, hskip]
      have hnot : ¬ after < e.1.serial := by omega
      rw [map_cons, filter_cons_of_neg (by simpa using hskip)] at h
      rw [hvisit, filter_cons_of_neg (by simpa using hskip)]
      exact ih h
    · have hafter : after < e.1.serial := by omega
      rw [map_cons, filter_cons_of_pos (by simpa using hafter)] at h
      cases n with
      | zero => simp at h
      | succ n =>
        rw [List.range'_succ, List.cons.injEq] at h
        have hvisit : replayVisit after r e.1 e.2 =
            .ok { expected := r.expected + 1, visited := r.visited ++ [e] } := by
          rw [replayVisit, if_neg hskip, if_neg (by simpa using h.1)]
        rw [hvisit, filter_cons_of_pos (by simpa using hafter)]
        refine (ih (r := { expected := r.expected + 1, visited := r.visited ++ [e] }) h.2).trans ?_
        simp [add_assoc, add_comm 1 n]

/-- A replay, where no serial behind the floor is missing among the survivors. -/
theorem replay_cut (h : Cut d) (hrun : above floor (survivors d) = List.range' (floor + 1) n)
    (hafter : floor ≤ after) (log : Log) :
    log.replay (repaired d).listing after =
      .ok ((survivorsAt d).filter fun e => decide (after < e.1.serial),
        { log with serial := max log.serial after }) := by
  have hgap : ((survivorsAt d).map (·.1.serial)).filter (fun x => decide (after < x)) =
      List.range' (after + 1) (floor + n - after) := by
    rw [serials_survivorsAt]
    exact above_of_le hrun hafter
  have hwhole : ∀ e ∈ repaired d, e.2.bytes = frames e.2.records := by
    intro e he
    obtain ⟨-, -, -, -, hbytes, -⟩ := mem_repaired he
    exact hbytes
  rw [Log.replay, replayFrom_whole h.repaired hwhole, survivorsAt_repaired,
    foldlM_replayVisit (r := { expected := after + 1 }) hgap]
  simp

end Mqtts.Journal

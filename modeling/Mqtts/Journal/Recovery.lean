import Mqtts.Journal.Ready

/-!
# The log recovers from a stop at any point

Whatever a stop leaves of the bytes that are not synced, recovery succeeds, and a replay visits
exactly the records whose frames are complete.
-/

namespace Mqtts.Journal

open List Process Nat Worker

/-! ## Steps -/

def Entry.raise (floor : Nat) : Entry → Nat
  | .reclaim cut _ => max floor cut
  | _ => floor

def CutsBelow (serial : Nat) (entries : List Entry) : Prop :=
  ∀ cut retained, Entry.reclaim cut retained ∈ entries → cut ≤ serial

/-- The invariant of the running log. -/
structure Inv (s : Process) : Prop where
  ready : Ready s.floor s.log s.files
  cuts : CutsBelow s.log.serial (s.worker.todo ++ s.log.queue)

theorem inv_start : Inv {} where
  ready :=
    { sound := ⟨by simp, by simp, by simp, by simp, by simp, by simp [recordsOf], by simp,
        by simp [above, recordsOf]⟩
      floor_le := le_refl _
      linked := by simp
      fresh := by simp
      fresh_pos := by simp
      segments := rfl
      closed := by simp
      active := by simp }
  cuts := fun _ _ h => by simp [todo] at h

variable {floor m serial : Nat} {d : Directory} {limits : Limits} {e : Entry} {s : Process}
  {entries : List Entry}

theorem Ready.perform {log} (h : Ready floor log d) (hserial : log.serial + 1 < 2 ^ 64)
    (hcut : CutsBelow log.serial [e]) {log' ops} (hp : log.perform limits e = .ok (log', ops)) :
    Along (SoundAt (e.raise floor)) d ops ∧ Ready (e.raise floor) log' (d.performAll ops) := by
  cases e with
  | record data =>
    obtain ⟨location, hw⟩ := perform_record_ok hp
    exact h.writeRecord hserial hw
  | «seal» =>
    obtain ⟨rfl, rfl⟩ := Prod.mk.inj (Except.ok.inj hp).symm
    exact h.closeSegment
  | reclaim cut retained =>
    obtain ⟨rfl, rfl⟩ := Prod.mk.inj (Except.ok.inj hp).symm
    have hle := hcut cut retained mem_cons_self
    exact ⟨(h.along_pruneSegments hle retained).1, h.pruneSegments hle retained⟩

theorem along_nextOps (h : Inv s) (limits : Limits) (hserial : s.log.serial + 1 < 2 ^ 64)
    (count : Nat) : Along (SoundAt (s.floorAt (count + 1))) s.files (s.nextOps limits) := by
  have hnow : SoundAt s.floor s.files := ⟨_, h.ready.sound⟩
  cases hw : s.worker with
  | idle | finishing =>
    simp only [nextOps, floorAt, hw]
    exact hnow
  | writing performed todo =>
    cases todo with
    | nil =>
      simp only [nextOps, floorAt, hw]
      unfold commitOps
      split
      · exact hnow
      · exact hnow
      · exact ⟨hnow, _, h.ready.sound.sync _⟩
    | cons e todo =>
      have hcut : CutsBelow s.log.serial [e] := by
        intro cut retained hm
        rw [mem_singleton] at hm
        exact h.cuts cut retained (by simp [hw, Worker.todo, hm])
      have hfloor : s.floorAt (count + 1) = e.raise s.floor := by
        cases e <;> simp [floorAt, hw, Entry.raise]
      rw [hfloor]
      simp only [nextOps, hw]
      cases hp : s.log.perform limits e with
      | ok r => exact (h.ready.perform hserial hcut hp).1
      | error f =>
        cases e with
        | record data => exact hnow
        | «seal» => cases hp
        | reclaim cut retained => cases hp

/-- The files are sound wherever the process stops, between any two file operations. -/
theorem sound_filesAt (h : Inv s) (limits : Limits) (hserial : s.log.serial + 1 < 2 ^ 64)
    (count : Nat) : SoundAt (s.floorAt count) (s.filesAt limits count) := by
  cases count with
  | zero =>
    have hfloor : s.floorAt 0 = s.floor := by
      unfold floorAt
      split <;> rfl
    rw [hfloor]
    exact ⟨_, h.ready.sound⟩
  | succ count => exact (along_nextOps h limits hserial count).take (count + 1)

/-! ## Reopening -/

theorem serials_survivors (h : Cut d) : (0 :: (survivors d).map (·.1)).Pairwise (· < ·) := by
  refine pairwise_cons.2 ⟨fun x hx => ?_, h.inc.sublist ((survivors_sublist d).map _)⟩
  obtain ⟨r, hr, rfl⟩ := mem_map.1 hx
  obtain ⟨e, he, hre⟩ := mem_flatMap.1 ((survivors_sublist d).subset hr)
  exact (h.framed e he r hre).serial_pos

theorem last_survivor (h : Cut d) (hrun : above floor (survivors d) = List.range' (floor + 1) m) :
    lastSerial 0 (survivors d) ≤ floor + m ∧ (m ≠ 0 → lastSerial 0 (survivors d) = floor + m) := by
  have hbound : ∀ r ∈ survivors d, r.1 ≤ floor + m := by
    intro r hr
    by_cases hfloor : floor < r.1
    · have hmem : r.1 ∈ above floor (survivors d) :=
        mem_filter.2 ⟨mem_map_of_mem hr, by simpa using hfloor⟩
      rw [hrun, mem_range'_1] at hmem
      omega
    · omega
  have hle : lastSerial 0 (survivors d) ≤ floor + m := lastSerial_le hbound (zero_le _)
  refine ⟨hle, fun hm => ?_⟩
  have hmem : floor + m ∈ above floor (survivors d) := by
    rw [hrun, mem_range'_1]
    omega
  obtain ⟨r, hr, hserial⟩ := mem_map.1 (mem_filter.1 hmem).1
  have hlast := (le_lastSerial (serials_survivors h)).2 r hr
  omega

theorem foldl_fresh (d : Directory) (n : Nat) : n ≤ d.foldl (fun n e => max n (e.1 + 1)) n ∧
      ∀ e ∈ d, e.1 < d.foldl (fun n e => max n (e.1 + 1)) n := by
  induction d generalizing n with
  | nil => exact ⟨le_refl _, by simp⟩
  | cons e d ih =>
    obtain ⟨hn, hd⟩ := ih (max n (e.1 + 1))
    rw [foldl_cons]
    refine ⟨by omega, fun e' he' => ?_⟩
    rcases mem_cons.1 he' with rfl | he'
    · omega
    · exact hd e' he'

theorem sound_repaired (h : Cut d) (hids : (d.map (·.1)).Pairwise (· < ·)) {n}
    (hrun : above floor (survivors d) = List.range' (floor + 1) n) :
    Sound floor n (repaired d) where
  pos := h.repaired.pos
  ids := by
    rw [repaired, map_map]
    exact hids
  framed := h.repaired.framed
  bytes e he := by
    obtain ⟨-, -, -, -, hbytes, -⟩ := mem_repaired he
    exact hbytes
  synced := by
    rw [repaired, pairwise_map]
    exact (pairwise_map.1 hids).imp fun _ => le_refl _
  inc := h.repaired.inc
  loose e he hl := by
    obtain ⟨-, -, -, -, -, -, hlink⟩ := mem_repaired he
    exact absurd hlink hl
  run := by
    rw [recordsOf_repaired]
    exact hrun

theorem ready_reopen (h : Cut d) (hids : (d.map (·.1)).Pairwise (· < ·))
    (hrun : above floor (survivors d) = List.range' (floor + 1) m) {after}
    (hafter : floor ≤ after) (hs : reopen floor d after = some s) :
    Ready s.floor s.log s.files ∧ s.log.queue = [] ∧ s.worker = .idle := by
  obtain ⟨hle, heq⟩ := last_survivor h hrun
  rw [reopen, recover_cut h] at hs
  dsimp only at hs
  rw [replay_cut h hrun hafter] at hs
  cases hs
  have hserial : (recoveredLog { nextSegment := freshSegment d } d).serial =
      lastSerial 0 (survivors d) := rfl
  have hfresh := foldl_fresh d 1
  refine ⟨⟨?_, ?_, fun e he => ?_, fun e he => ?_, ?_, rfl, fun _ e he => ?_,
    fun _ hnone => nomatch hnone⟩, rfl, rfl⟩
  · dsimp only
    rw [hserial]
    split_ifs with hlt
    · rw [Nat.max_eq_right (Nat.le_of_lt hlt), Nat.sub_self]
      refine sound_repaired h hids (above_eq_nil fun r hr => ?_)
      have := (le_lastSerial (serials_survivors h)).2 r hr
      omega
    · rw [max_eq_left (not_lt.1 hlt)]
      have hcount : lastSerial 0 (survivors d) - floor = m := by
        by_cases hm : m = 0
        · omega
        · have := heq hm
          omega
      rw [hcount]
      exact sound_repaired h hids hrun
  · dsimp only
    rw [hserial]
    split <;> omega
  · obtain ⟨-, -, -, -, -, -, hlink⟩ := mem_repaired he
    exact hlink
  · obtain ⟨e', he', hid, -⟩ := mem_repaired he
    rw [hid]
    exact hfresh.2 e' he'
  · exact ne_of_gt hfresh.1
  · obtain ⟨-, -, -, -, -, hsynced, -⟩ := mem_repaired he
    exact le_of_eq hsynced.symm

/-! ## Runs -/

def SerialsFit (s : Process) (_ : Event) : Prop := s.log.serial + 1 < 2 ^ 64

section

variable (h : CutsBelow serial entries)
include h

theorem CutsBelow.mono {serial'} (hle : serial ≤ serial') : CutsBelow serial' entries :=
  fun cut retained hm => le_trans (h cut retained hm) hle

theorem CutsBelow.append {entries'}
    (h' : CutsBelow serial entries') : CutsBelow serial (entries ++ entries') := by
  intro cut retained hm
  rcases mem_append.1 hm with hm | hm
  · exact h cut retained hm
  · exact h' cut retained hm

theorem CutsBelow.of_subset {entries'}
    (hsub : ∀ e ∈ entries', e ∈ entries) : CutsBelow serial entries' :=
  fun cut retained hm => h cut retained (hsub _ hm)

end

theorem Inv.enqueue (h : Inv s) (he : CutsBelow s.log.serial [e]) {log}
    (hready : Ready s.floor log s.files) (hserial : log.serial = s.log.serial)
    (hqueue : log.queue = s.log.queue ++ [e]) : Inv { s with log := log } where
  ready := hready
  cuts := by
    rw [hserial, hqueue, ← append_assoc]
    exact h.cuts.append he

theorem inv_write (h : Inv s) (hserial : s.log.serial + 1 < 2 ^ 64) {performed todo}
    (hw : s.worker = .writing performed (e :: todo)) : Inv (s.write limits performed todo e) := by
  have hcuts : CutsBelow s.log.serial ((e :: todo) ++ s.log.queue) := by
    have := h.cuts
    rwa [hw] at this
  unfold write
  cases hp : s.log.perform limits e with
  | error f => exact ⟨h.ready.of_eq rfl rfl rfl rfl, hcuts.of_subset (by simp [Worker.todo]; tauto)⟩
  | ok r =>
    obtain ⟨log', ops⟩ := r
    obtain ⟨hqueue, -, -, hle, -⟩ := perform_counters hp
    have hready := (h.ready.perform hserial (hcuts.of_subset (by simp)) hp).2
    refine ⟨?_, ?_⟩
    · cases e <;> exact hready
    · show CutsBelow log'.serial (todo ++ log'.queue)
      rw [hqueue]
      exact (hcuts.mono hle).of_subset (by simp; tauto)

/-- Every event keeps it, reopening after a stop among them. -/
theorem inv_step {s' e} (h : Inv s) (hfit : SerialsFit s e)
    (hs : s.step limits e = some s') : Inv s' := by
  cases e <;> simp only [step] at hs
  case append data =>
    split at hs <;> cases hs
    rename_i log hlog
    unfold Log.append at hlog
    dsimp only at hlog
    split at hlog
    · cases hlog
    · split at hlog <;> cases hlog
      exact h.enqueue (fun _ _ hm => by simp at hm) (h.ready.of_eq rfl rfl rfl rfl) rfl rfl
  case «seal» =>
    cases hs
    exact h.enqueue (fun _ _ hm => by simp at hm) (h.ready.of_eq rfl rfl rfl rfl) rfl rfl
  case prune cut retained =>
    split at hs <;> cases hs
    rename_i hle
    refine h.enqueue (fun _ _ hm => ?_) (h.ready.of_eq rfl rfl rfl rfl) rfl rfl
    obtain ⟨rfl, -⟩ : _ ∧ _ := by simpa using hm
    exact hle
  case take =>
    split at hs <;> cases hs
    refine ⟨h.ready.of_eq rfl rfl rfl rfl, h.cuts.of_subset fun e he => ?_⟩
    have hbatch := takeBatch_append s.log.queue
    rcases mem_append.1 he with he | he
    · have he' : e ∈ (takeBatch s.log.queue).1 := by
        dsimp only at he
        split at he
        · simp [todo] at he
        · exact he
      rw [← hbatch]
      simp [he']
    · rw [← hbatch]
      simp [show e ∈ (takeBatch s.log.queue).2 from he]
  case write =>
    split at hs <;> cases hs
    rename_i hw
    exact inv_write h hfit hw
  case commit =>
    split at hs <;> cases hs
    refine ⟨?_, h.cuts.of_subset (by simp [todo]; tauto)⟩
    unfold commitOps
    split
    · exact h.ready
    · exact h.ready
    · exact h.ready.sync _
  case finish =>
    split at hs <;> cases hs
    refine ⟨h.ready.of_eq rfl rfl rfl rfl, h.cuts.of_subset fun e he => ?_⟩
    rcases mem_append.1 he with he | he
    · dsimp only at he
      split at he <;> simp [todo] at he
    · exact mem_append_right _ he
  case reopen count kept after =>
    split at hs
    · rename_i hafter
      obtain ⟨d, hcrash, hs⟩ := Option.bind_eq_some_iff.1 hs
      obtain ⟨n, hsound⟩ := sound_filesAt h limits hfit count
      obtain ⟨hcut, hids, m, hrun⟩ := cut_of_crash hsound hcrash
      obtain ⟨hready, hqueue, hworker⟩ := ready_reopen hcut hids hrun hafter hs
      exact ⟨hready, fun _ _ hm => by simp [hqueue, hworker, todo] at hm⟩
    · cases hs

theorem inv_of_reachable (h : Reachable limits SerialsFit s) : Inv s :=
  h.invariant (fun _ hs => hs ▸ inv_start) fun _ _ _ => inv_step

/-- What recovery and replay do on a directory that a stop has left: recovery succeeds, and a
second one changes nothing; a replay behind `floor` visits, each once and in order, exactly
the complete records behind its fence, with serials that follow the fence one by one; and the
next record takes the next serial. -/
structure Recovers (limits : Limits) (floor : Nat) (d : Directory) : Prop where
  recovered : ∃ log listing, recover d.listing = .ok (log, listing) ∧
    recover listing = .ok (log, listing) ∧
    ∀ after, floor ≤ after → ∃ log', log.replay listing after =
        .ok ((survivorsAt d).filter fun e => decide (after < e.1.serial), log') ∧
      ((survivorsAt d).filter fun e => decide (after < e.1.serial)).map (·.1.serial) =
        List.range' (after + 1)
          ((survivorsAt d).filter fun e => decide (after < e.1.serial)).length ∧
      ∀ data location log'' ops, log'.writeRecord limits data = .ok (location, log'', ops) →
        location.serial =
          after + ((survivorsAt d).filter fun e => decide (after < e.1.serial)).length + 1

theorem recovers_of_cut (limits : Limits) (h : Cut d)
    (hrun : above floor (survivors d) = List.range' (floor + 1) m) : Recovers limits floor d := by
  refine ⟨_, _, recover_cut h, recover_repaired h, fun after hafter =>
    ⟨_, replay_cut h hrun hafter _, ?_⟩⟩
  have hserials : ((survivorsAt d).filter fun e => decide (after < e.1.serial)).map (·.1.serial) =
      List.range' (after + 1) (floor + m - after) := by
    have hmap : ((survivorsAt d).filter fun e => decide (after < e.1.serial)).map (·.1.serial) =
        ((survivorsAt d).map (·.1.serial)).filter (fun x => decide (after < x)) := by
      rw [filter_map]
      rfl
    rw [hmap, serials_survivorsAt]
    exact (above_of_le hrun hafter)
  have hlength : ((survivorsAt d).filter fun e => decide (after < e.1.serial)).length =
      floor + m - after := by
    have := congrArg List.length hserials
    rwa [length_map, length_range'] at this
  rw [hlength]
  refine ⟨hserials, fun data location log'' ops hw => ?_⟩
  obtain ⟨hle, heq⟩ := last_survivor h hrun
  have hlast : (recoveredLog { nextSegment := freshSegment d } d).serial =
      lastSerial 0 (survivors d) := rfl
  rw [(Log.writeRecord_counters hw).1]
  dsimp only
  rw [hlast]
  by_cases hm : m = 0
  · omega
  · have := heq hm
    omega

/-- A log recovers from a stop at any point of any run, whatever the stop leaves of the bytes
that are not synced. -/
theorem recovers {limits s} (h : Reachable limits SerialsFit s)
    (hfit : s.log.serial + 1 < 2 ^ 64) (count : Nat) {kept d}
    (hcrash : (s.filesAt limits count).crash kept = some d) :
    Recovers limits (s.floorAt count) d := by
  obtain ⟨n, hsound⟩ := sound_filesAt (inv_of_reachable h) limits hfit count
  obtain ⟨hcut, -, m, hrun⟩ := cut_of_crash hsound hcrash
  exact recovers_of_cut limits hcut hrun

instance : ∀ s e, Decidable (SerialsFit s e) := fun _ _ => inferInstanceAs (Decidable (_ < _))

/-- Two records of one byte. The first is committed, the second is in the file but not
synced, and the stop leaves ten bytes of its frame. -/
def tornRun : List Event :=
  [.append [0x61], .take, .write, .commit, .finish, .append [0x62], .take, .write]

def tornLimits : Limits := ⟨4096, 1048576⟩

def tornLog : Process := (Runs.runOk (step tornLimits) SerialsFit {} tornRun).getD {}

def tornFiles : Directory := ((tornLog.filesAt tornLimits 0).crash [some 35]).getD []

/-- The second record is lost, the first one is visited. -/
theorem tornRun_recovers :
    (survivorsAt tornFiles).map (·.2) = [[0x61]] ∧ Recovers tornLimits 0 tornFiles := by
  have hrun : Runs.runOk (step tornLimits) SerialsFit {} tornRun = some tornLog := by
    decide +kernel
  have hcrash : (tornLog.filesAt tornLimits 0).crash [some 35] = some tornFiles := by decide +kernel
  refine ⟨by decide +kernel, ?_⟩
  have h := recovers (Runs.reach_runOk (.start rfl) hrun) (by decide +kernel) 0 hcrash
  have hfloor : tornLog.floorAt 0 = 0 := by decide +kernel
  rwa [hfloor] at h

end Mqtts.Journal

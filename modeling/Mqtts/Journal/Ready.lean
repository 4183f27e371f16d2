import Mqtts.Journal.Files

/-!
# The log and its files between two steps

Each function of the worker takes a ready log to a ready log, and its file operations keep the files
sound one by one.
-/

namespace Mqtts.Journal

open List Directory Nat

/-! ## Operations one after the other -/

/-- The files are sound after each of the operations. -/
def Along (P : Directory → Prop) : Directory → List FileOp → Prop
  | d, [] => P d
  | d, op :: ops => P d ∧ Along P (d.perform op) ops

variable {d : Directory}

theorem Along.take {P : Directory → Prop} {ops} (h : Along P d ops) (count : Nat) :
    P (d.performAll (ops.take count)) := by
  induction ops generalizing d count with
  | nil =>
    rw [take_nil]
    exact h
  | cons op ops ih =>
    cases count with
    | zero => exact h.1
    | succ count => exact ih h.2 count

theorem Along.append {P : Directory → Prop} {ops ops'} (h : Along P d ops)
    (h' : Along P (d.performAll ops) ops') : Along P d (ops ++ ops') := by
  induction ops generalizing d with
  | nil => exact h'
  | cons op ops ih => exact ⟨h.1, ih h.2 h'⟩

theorem performAll_append (d : Directory) (ops ops' : List FileOp) :
    d.performAll (ops ++ ops') = (d.performAll ops).performAll ops' :=
  foldl_append

def SoundAt (floor : Nat) (d : Directory) : Prop := ∃ n, Sound floor n d

/-! ## The log and its files between two steps -/

/-- The sizes and last serials of the segments are those of the files, the open segment is the last
file, and everything is synced when no segment is open. -/
structure Ready (floor : Nat) (log : Log) (d : Directory) : Prop where
  sound : Sound floor (log.serial - floor) d
  floor_le : floor ≤ log.serial
  linked : ∀ e ∈ d, e.2.link = .linked
  fresh : ∀ e ∈ d, e.1 < log.nextSegment
  fresh_pos : log.nextSegment ≠ 0
  segments : log.segments = d.map segmentOf
  closed : log.active = none → ∀ e ∈ d, e.2.bytes.length ≤ e.2.synced
  active : ∀ segment, log.active = some segment → ∃ d₀ f, d = d₀ ++ [(segment, f)]

namespace Ready

variable {floor : Nat} {log : Log} {d : Directory}

theorem of_eq {log'} (h : Ready floor log d) (hserial : log'.serial = log.serial)
    (hnext : log'.nextSegment = log.nextSegment) (hsegments : log'.segments = log.segments)
    (hactive : log'.active = log.active) : Ready floor log' d where
  sound := by rw [hserial]; exact h.sound
  floor_le := by rw [hserial]; exact h.floor_le
  linked := h.linked
  fresh := by rw [hnext]; exact h.fresh
  fresh_pos := by rw [hnext]; exact h.fresh_pos
  segments := by rw [hsegments]; exact h.segments
  closed := by rw [hactive]; exact h.closed
  active := by rw [hactive]; exact h.active

variable {segment : Nat}

theorem mem_sync {e} (h : e ∈ d.perform (.sync segment)) :
    ∃ f, (e.1, f) ∈ d ∧ (e.2 = f ∨ e.1 = segment ∧ e.2 = { f with synced := f.bytes.length }) :=
  mem_onFile h

section

variable (h : Ready floor log d)
include h

theorem sync (segment : Nat) : Ready floor log (d.perform (.sync segment))
    where
  sound := h.sound.sync segment
  floor_le := h.floor_le
  linked e he := by
    obtain ⟨f, hf, he | ⟨-, he⟩⟩ := mem_sync he <;> rw [he]
    · exact h.linked _ hf
    · exact h.linked _ hf
  fresh e he := by
    obtain ⟨f, hf, -⟩ := mem_sync he
    exact h.fresh (e.1, f) hf
  fresh_pos := h.fresh_pos
  segments := by
    rw [h.segments, perform, onFile, map_map]
    refine map_congr_left fun e _ => ?_
    by_cases hs : e.1 = segment <;> simp [hs, segmentOf]
  closed hnone e he := by
    obtain ⟨f, hf, he | ⟨-, he⟩⟩ := mem_sync he
    · rw [he]
      exact h.closed hnone _ hf
    · refine le_of_eq ?_
      rw [he]
  active open' hopen := by
    obtain ⟨d₀, f, rfl⟩ := h.active open' hopen
    exact ⟨onFile segment (fun f => { f with synced := f.bytes.length }) d₀,
      if open' = segment then { f with synced := f.bytes.length } else f, by
        simp only [perform, onFile, map_append, map_cons, map_nil]
        by_cases hs : open' = segment <;> simp [hs]⟩

theorem synced_all (hopen : log.active = some segment) :
    ∀ e ∈ d.perform (.sync segment), e.2.bytes.length ≤ e.2.synced := by
  obtain ⟨d₀, f, rfl⟩ := h.active segment hopen
  have hfiles : perform (d₀ ++ [(segment, f)]) (.sync segment) =
      d₀ ++ [(segment, { f with synced := f.bytes.length })] :=
    onFile_last (fun f => { f with synced := f.bytes.length }) h.sound.ids
  rw [hfiles]
  intro e he
  rcases mem_append.1 he with he | he
  · exact (pairwise_append.1 h.sound.synced).2.2 e he (segment, f) mem_cons_self
  · refine le_of_eq ?_
    rw [mem_singleton.1 he]

theorem closeSegment : Along (SoundAt floor) d log.closeSegment.2 ∧
      Ready floor log.closeSegment.1 (d.performAll log.closeSegment.2) := by
  unfold Log.closeSegment
  cases hopen : log.active with
  | none => exact ⟨⟨_, h.sound⟩, h⟩
  | some segment =>
    refine ⟨⟨⟨_, h.sound⟩, _, h.sound.sync segment⟩, ?_⟩
    have hsync := h.sync segment
    exact
      { hsync with
        closed := fun _ => h.synced_all hopen
        active := fun _ hnone => nomatch hnone }

theorem rotate (limits : Limits) (bytes : Nat) :
    Along (SoundAt floor) d (log.rotate limits bytes).2 ∧
      Ready floor (log.rotate limits bytes).1 (d.performAll (log.rotate limits bytes).2) := by
  unfold Log.rotate
  split
  · exact h.closeSegment
  · exact ⟨⟨_, h.sound⟩, h⟩

theorem create : (d.perform (.create log.nextSegment)).perform .syncDirectory =
      d ++ [(log.nextSegment, { link := .linked })] := by
  have hfilter : ∀ e ∈ d, decide (e.2.link ≠ .removed) := by
    intro e he
    rw [h.linked e he]
    decide
  have hmap : d.map (fun e => (e.1, { e.2 with link := .linked })) = d := by
    refine (map_congr_left fun e he => ?_).trans (map_id d)
    have := h.linked e he
    obtain ⟨i, f⟩ := e
    cases f
    subst this
    rfl
  simp only [perform, filter_append, filter_eq_self.2 hfilter, map_append, hmap]
  rfl

theorem openSegment : Along (SoundAt floor) d log.openSegment.2.2 ∧
      Ready floor log.openSegment.2.1 (d.performAll log.openSegment.2.2) ∧
      log.openSegment.2.1.active = some log.openSegment.1 ∧
      log.openSegment.2.1.serial = log.serial := by
  unfold Log.openSegment
  cases hopen : log.active with
  | some segment => exact ⟨⟨_, h.sound⟩, h, hopen, rfl⟩
  | none =>
    have hcreated := h.sound.create h.fresh h.fresh_pos (h.closed hopen)
    have hsynced := hcreated.syncDirectory
    refine ⟨⟨⟨_, h.sound⟩, ⟨_, hcreated⟩, ⟨_, hsynced⟩⟩, ?_, rfl, rfl⟩
    show Ready floor _ ((d.perform (.create log.nextSegment)).perform .syncDirectory)
    rw [h.create] at hsynced ⊢
    refine ⟨hsynced, h.floor_le, fun e he => ?_, fun e he => ?_, succ_ne_zero _, ?_,
      (fun hnone => nomatch hnone), fun segment hs => ?_⟩
    · rcases mem_append.1 he with he | he
      · exact h.linked e he
      · rw [mem_singleton.1 he]
    · rcases mem_append.1 he with he | he
      · exact lt_succ_of_lt (h.fresh e he)
      · rw [mem_singleton.1 he]
        exact lt_succ_self _
    · rw [map_append, ← h.segments]
      rfl
    · cases hs
      exact ⟨d, _, rfl⟩

theorem put (hopen : log.active = some segment) {data : Str}
    (hne : data ≠ []) (hmax : data.length ≤ maxRecord) (hserial : log.serial + 1 < 2 ^ 64) :
    Along (SoundAt floor) d (log.put segment (headerSize + data.length) data).2.2 ∧
      Ready floor (log.put segment (headerSize + data.length) data).2.1
        (d.performAll (log.put segment (headerSize + data.length) data).2.2) := by
  obtain ⟨d₀, f, rfl⟩ := h.active segment hopen
  have hrun : floor + (log.serial - floor) + 1 = log.serial + 1 := by
    have := h.floor_le
    omega
  have hlinked : f.link = .linked := h.linked (segment, f) (by simp)
  have hframed : Framed (floor + (log.serial - floor) + 1, data) := by
    rw [hrun]
    exact ⟨succ_pos _, hserial, hne, hmax⟩
  have hwritten := h.sound.write hlinked hframed
  rw [hrun] at hwritten
  refine ⟨⟨⟨_, h.sound⟩, _, hwritten⟩, ?_⟩
  show Ready floor _ (perform (d₀ ++ [(segment, f)]) (.write segment (log.serial + 1, data)))
  have hfiles : perform (d₀ ++ [(segment, f)]) (.write segment (log.serial + 1, data)) =
      d₀ ++ [(segment, { f with
        records := f.records ++ [(log.serial + 1, data)]
        bytes := f.bytes ++ frameBytes (log.serial + 1) data })] :=
    onFile_last (fun f => { f with
      records := f.records ++ [(log.serial + 1, data)]
      bytes := f.bytes ++ frameBytes (log.serial + 1) data }) h.sound.ids
  have hcount : log.serial - floor + 1 = log.serial + 1 - floor := by
    have := h.floor_le
    omega
  rw [hcount, hfiles] at hwritten
  rw [hfiles]
  refine ⟨hwritten, le_succ_of_le h.floor_le, fun e he => ?_, fun e he => ?_, h.fresh_pos, ?_,
    fun hnone => ?_, fun segment' hs => ?_⟩
  · rcases mem_append.1 he with he | he
    · exact h.linked e (mem_append_left _ he)
    · rw [mem_singleton.1 he]
      exact hlinked
  · rcases mem_append.1 he with he | he
    · exact h.fresh e (mem_append_left _ he)
    · rw [mem_singleton.1 he]
      exact h.fresh (segment, f) (by simp)
  · have hids := h.sound.ids
    rw [map_append, pairwise_append] at hids
    have hothers : (d₀.map segmentOf).map (fun e =>
        if e.1 = segment then
          (e.1, (⟨e.2.size + (headerSize + data.length), log.serial + 1⟩ : Segment)) else e) =
        d₀.map segmentOf := by
      refine (map_congr_left fun e he => ?_).trans (map_id _)
      obtain ⟨e', he', rfl⟩ := mem_map.1 he
      have hlt : e'.1 < segment := hids.2.2 e'.1 (mem_map_of_mem he') segment (by simp)
      rw [if_neg (by simp only [segmentOf]; omega)]
      rfl
    have hlast : lastSerial 0 (f.records ++ [(log.serial + 1, data)]) = log.serial + 1 := by
      simp [lastSerial]
    simp only [Log.put, h.segments, map_append, hothers]
    simp [segmentOf, hlast]
  · rw [show (log.put segment (headerSize + data.length) data).2.1.active = log.active from rfl,
      hopen] at hnone
    cases hnone
  · rw [show (log.put segment (headerSize + data.length) data).2.1.active = log.active from rfl,
      hopen] at hs
    cases hs
    exact ⟨d₀, _, rfl⟩

theorem writeRecord {limits data} (hserial : log.serial + 1 < 2 ^ 64) {location log' ops}
    (hw : log.writeRecord limits data = .ok (location, log', ops)) :
    Along (SoundAt floor) d ops ∧ Ready floor log' (d.performAll ops) := by
  obtain ⟨⟨hne, hmax⟩, -, hw⟩ := Log.writeRecord_ok hw
  obtain ⟨ha₁, hr₁⟩ := h.rotate limits (headerSize + data.length)
  obtain ⟨ha₂, hr₂, hopen, -⟩ := hr₁.openSegment
  have hsame : (Log.prepared limits log data).2.1.serial = log.serial :=
    (Log.sameCounters_prepared data).serial
  obtain ⟨ha₃, hr₃⟩ := hr₂.put hopen hne hmax (by
    show (Log.prepared limits log data).2.1.serial + 1 < 2 ^ 64
    rw [hsame]
    exact hserial)
  obtain ⟨-, rfl, rfl⟩ : _ ∧ _ ∧ _ := by simpa only [Prod.mk.injEq] using hw
  rw [performAll_append, performAll_append]
  refine ⟨(ha₁.append ha₂).append ?_, hr₃⟩
  rw [performAll_append]
  exact ha₃

end

end Ready

/-! ## Reclamation -/

theorem mem_unlink {segment e} (h : e ∈ d.perform (.unlink segment)) :
    ∃ f, (e.1, f) ∈ d ∧ e.2.records = f.records := by
  obtain ⟨f, hf, he | ⟨-, he⟩⟩ : ∃ f, (e.1, f) ∈ d ∧
      (e.2 = f ∨ e.1 = segment ∧ e.2 = { f with link := .removed }) := mem_onFile h
  · exact ⟨f, hf, by rw [he]⟩
  · exact ⟨f, hf, by rw [he]⟩

theorem Sound.unlinkAll {floor n} {segments : List Nat} (h : Sound floor n d)
    (hold : ∀ e ∈ d, e.1 ∈ segments → ∀ r ∈ e.2.records, r.1 ≤ floor) :
    Along (SoundAt floor) d (segments.map .unlink) ∧
      Sound floor n (d.performAll (segments.map .unlink)) := by
  induction segments generalizing d with
  | nil => exact ⟨⟨n, h⟩, h⟩
  | cons segment segments ih =>
    have hstep := h.unlink fun f hf => hold (segment, f) hf mem_cons_self
    have hrest := ih hstep fun e he hs => by
      obtain ⟨f, hf, hrecords⟩ := mem_unlink he
      rw [hrecords]
      exact hold (e.1, f) hf (mem_cons_of_mem _ hs)
    exact ⟨⟨⟨n, h⟩, hrest.1⟩, hrest.2⟩

theorem performAll_unlink (segments : List Nat) (d : Directory) :
    d.performAll (segments.map .unlink) =
      d.map (fun e => if e.1 ∈ segments then (e.1, { e.2 with link := .removed }) else e) := by
  induction segments generalizing d with
  | nil => exact ((map_congr_left fun e _ => by simp).trans (map_id d)).symm
  | cons segment segments ih =>
    show (d.perform (.unlink segment)).performAll (segments.map .unlink) = _
    rw [ih, perform, onFile, map_map]
    refine map_congr_left fun e _ => ?_
    by_cases hs : e.1 = segment
    · by_cases hm : segment ∈ segments <;> simp [hs, hm]
    · by_cases hm : e.1 ∈ segments <;> simp [hs, hm]

theorem performAll_unlink_sync {segments : List Nat} (hlinked : ∀ e ∈ d, e.2.link = .linked) :
    (d.performAll (segments.map .unlink)).perform .syncDirectory =
      d.filter (fun e => decide (e.1 ∉ segments)) := by
  rw [performAll_unlink]
  induction d with
  | nil => rfl
  | cons e d ih =>
    have hrest := ih fun e he => hlinked e (mem_cons_of_mem _ he)
    have hl := hlinked e mem_cons_self
    by_cases hs : e.1 ∈ segments
    · rw [filter_cons_of_neg (by simpa using hs), ← hrest]
      simp [perform, hs]
    · rw [filter_cons_of_pos (by simpa using hs), ← hrest]
      obtain ⟨i, f⟩ := e
      cases f
      subst hl
      simp [perform, hs]

namespace Ready

variable {floor : Nat} {log : Log} {d : Directory} {e : Nat × File} {cut : Nat}

section

variable (h : Ready floor log d)
include h

theorem serials_file (he : e ∈ d) : (0 :: e.2.records.map (·.1)).Pairwise (· < ·) := by
  refine pairwise_cons.2 ⟨fun x hx => ?_, ?_⟩
  · obtain ⟨r, hr, rfl⟩ := mem_map.1 hx
    exact (h.sound.framed e he r hr).serial_pos
  · refine h.sound.inc.sublist (List.Sublist.map _ ?_)
    rw [recordsOf, List.flatMap]
    exact sublist_flatten_of_mem (mem_map_of_mem he)

theorem mem_reclaimed {retained} (he : e ∈ d) :
    e.1 ∈ (log.segments.filter (log.reclaimable cut retained)).map (·.1) ↔
      log.reclaimable cut retained (segmentOf e) := by
  rw [h.segments, mem_map]
  constructor
  · rintro ⟨g, hg, hid⟩
    obtain ⟨hg, hr⟩ := mem_filter.1 hg
    obtain ⟨e', he', rfl⟩ := mem_map.1 hg
    obtain rfl : e' = e :=
      inj_on_of_nodup_map (h.sound.ids.imp fun hlt => ne_of_lt hlt) he' he hid
    exact hr
  · exact fun hr => ⟨segmentOf e, mem_filter.2 ⟨mem_map_of_mem he, hr⟩, rfl⟩

theorem old_of_reclaimable {retained} (he : e ∈ d)
    (hr : log.reclaimable cut retained (segmentOf e)) : ∀ r ∈ e.2.records, r.1 ≤ cut := by
  intro r hrec
  have hle := (le_lastSerial (h.serials_file he)).2 r hrec
  have hlast : (segmentOf e).2.last ≤ cut := by
    rw [Log.reclaimable, Bool.and_eq_true, Bool.and_eq_true] at hr
    exact of_decide_eq_true hr.1.2
  exact le_trans hle hlast

theorem raise (hcut : cut ≤ log.serial) : Ready (max floor cut) log d :=
  { h with
    sound := by
      have hr := h.sound.raise (le_max_left floor cut)
      have hfloor := h.floor_le
      rwa [show floor + (log.serial - floor) = log.serial by omega] at hr
    floor_le := Nat.max_le.2 ⟨h.floor_le, hcut⟩ }

theorem files_pruneSegments (cut : Nat) (retained : List Nat) :
    d.performAll (log.pruneSegments cut retained).2 =
      d.filter (fun e => !log.reclaimable cut retained (segmentOf e)) := by
  have hfilter : d.filter (fun e => decide (e.1 ∉
      (log.segments.filter (log.reclaimable cut retained)).map (·.1))) =
      d.filter (fun e => !log.reclaimable cut retained (segmentOf e)) := by
    refine filter_congr fun e he => ?_
    rw [Bool.eq_iff_iff, decide_eq_true_iff, Bool.not_eq_true', ← Bool.not_eq_true]
    exact not_congr (h.mem_reclaimed he)
  unfold Log.pruneSegments
  dsimp only
  split
  · rename_i hnone
    rw [hnone] at hfilter ⊢
    rw [← hfilter]
    simp [performAll]
  · have hops : (log.segments.filter (log.reclaimable cut retained)).map
        (fun e => FileOp.unlink e.1) =
        ((log.segments.filter (log.reclaimable cut retained)).map (·.1)).map .unlink := by
      rw [map_map]
      rfl
    rw [hops, performAll_append]
    exact (performAll_unlink_sync h.linked).trans hfilter

theorem along_pruneSegments (hcut : cut ≤ log.serial) (retained : List Nat) :
    Along (SoundAt (max floor cut)) d (log.pruneSegments cut retained).2 ∧
      Sound (max floor cut) (log.serial - max floor cut)
        (d.performAll (log.pruneSegments cut retained).2) := by
  have hraised := (h.raise hcut).sound
  have hold : ∀ e ∈ d, e.1 ∈ (log.segments.filter (log.reclaimable cut retained)).map (·.1) →
      ∀ r ∈ e.2.records, r.1 ≤ max floor cut := fun e he hs r hr =>
    le_trans (h.old_of_reclaimable he ((h.mem_reclaimed he).1 hs) r hr) (le_max_right _ _)
  have hunlinked := hraised.unlinkAll hold
  rw [map_map] at hunlinked
  unfold Log.pruneSegments
  dsimp only
  split
  · rename_i hnone
    rw [hnone]
    exact ⟨⟨_, hraised⟩, hraised⟩
  · have hsynced := hunlinked.2.syncDirectory
    rw [performAll_append]
    exact ⟨hunlinked.1.append ⟨⟨_, hunlinked.2⟩, _, hsynced⟩, hsynced⟩

theorem pruneSegments (hcut : cut ≤ log.serial) (retained : List Nat) :
    Ready (max floor cut) (log.pruneSegments cut retained).1
      (d.performAll (log.pruneSegments cut retained).2) := by
  have hsound := (h.along_pruneSegments hcut retained).2
  rw [h.files_pruneSegments] at hsound ⊢
  have hsub : ∀ {e}, e ∈ d.filter (fun e => !log.reclaimable cut retained (segmentOf e)) → e ∈ d :=
    fun he => (mem_filter.1 he).1
  refine ⟨hsound, (h.raise hcut).floor_le, fun e he => h.linked e (hsub he),
    fun e he => h.fresh e (hsub he), h.fresh_pos, ?_, fun hnone e he => h.closed hnone e (hsub he),
    fun segment hopen => ?_⟩
  · show log.segments.filter (fun e => !log.reclaimable cut retained e) = _
    rw [h.segments, filter_map]
    rfl
  · obtain ⟨d₀, f, rfl⟩ := h.active segment hopen
    have hkept : (!log.reclaimable cut retained (segmentOf (segment, f))) := by
      have : log.active = some segment := hopen
      simp [Log.reclaimable, segmentOf, this]
    refine ⟨d₀.filter fun e => !log.reclaimable cut retained (segmentOf e), f, ?_⟩
    rw [filter_append, filter_singleton, hkept]
    rfl

end

end Ready

end Mqtts.Journal

import Mqtts.Journal.Replay

/-!
# The files of a running log

Each file operation keeps the files sound, and a stop leaves a directory that can be recovered.
-/

namespace Mqtts.Journal

open List Directory

/-! ## Sound files -/

/-- What the files keep through every single file operation: whole frames with growing serials,
everything but the last file synced, names that are not yet on disk only on files that no replay
behind the floor reads, and behind the floor the `n` serials that follow it without a gap. -/
structure Sound (floor n : Nat) (d : Directory) : Prop where
  pos : ∀ e ∈ d, e.1 ≠ 0
  ids : (d.map (·.1)).Pairwise (· < ·)
  framed : ∀ e ∈ d, ∀ r ∈ e.2.records, Framed r
  bytes : ∀ e ∈ d, e.2.bytes = frames e.2.records
  synced : d.Pairwise fun e _ => e.2.bytes.length ≤ e.2.synced
  inc : ((recordsOf d).map (·.1)).Pairwise (· < ·)
  loose : ∀ e ∈ d, e.2.link ≠ .linked → ∀ r ∈ e.2.records, r.1 ≤ floor
  run : above floor (recordsOf d) = List.range' (floor + 1) n

inductive Crashed : Directory → Directory → Prop where
  | nil : Crashed [] []
  | keep {segment : Nat} {f : File} {d d' : Directory} (n : Nat) : f.synced ≤ n → Crashed d d' →
      Crashed ((segment, f) :: d) ((segment, { f with bytes := f.bytes.take n, link := .linked })
        :: d')
  | lose {segment : Nat} {f : File} {d d' : Directory} : f.link ≠ .linked → Crashed d d' →
      Crashed ((segment, f) :: d) d'

variable {d : Directory}

theorem crashed_of_crash {d' kept} (h : d.crash kept = some d') : Crashed d d' := by
  induction d, kept using crash.induct generalizing d' with
  | case1 =>
    obtain rfl : [] = d' := by simpa [crash] using h
    exact .nil
  | case2 segment f d n kept hn ih =>
    simp only [crash, hn, if_true, Option.map_eq_some_iff] at h
    obtain ⟨rest, hrest, rfl⟩ := h
    exact .keep n hn (ih hrest)
  | case3 segment f d n kept hn => simp [crash, hn] at h
  | case4 segment f d kept hlink ih =>
    simp only [crash, hlink, if_true, ne_eq, not_false_eq_true] at h
    exact .lose hlink (ih h)
  | case5 segment f d kept hlink =>
    simp [crash] at h hlink
    exact absurd hlink h.1
  | case6 d kept h₁ h₂ h₃ => simp [crash] at h

namespace Crashed

variable {d d' : Directory}

section

variable (h : Crashed d d')
include h

theorem origin {e} (he : e ∈ d') :
    ∃ f n, (e.1, f) ∈ d ∧ e.2.records = f.records ∧ e.2.bytes = f.bytes.take n := by
  induction h with
  | nil => simp at he
  | keep n hn _ ih =>
    rcases mem_cons.1 he with rfl | he
    · exact ⟨_, n, mem_cons_self, rfl, rfl⟩
    · obtain ⟨f', n', hf', h'⟩ := ih he
      exact ⟨f', n', mem_cons_of_mem _ hf', h'⟩
  | lose _ _ ih =>
    obtain ⟨f', n', hf', h'⟩ := ih he
    exact ⟨f', n', mem_cons_of_mem _ hf', h'⟩

theorem ids_sublist : (d'.map (·.1)).Sublist (d.map (·.1)) := by
  induction h with
  | nil => exact .refl _
  | keep n _ _ ih => exact ih.cons_cons _
  | lose _ _ ih => exact ih.cons _

theorem records_sublist : (recordsOf d').Sublist (recordsOf d) := by
  induction h with
  | nil => exact .refl _
  | keep n _ _ ih => exact (List.Sublist.refl _).append ih
  | lose _ _ ih => exact ih.trans (sublist_append_right _ _)

theorem whole (hbytes : ∀ e ∈ d, e.2.bytes = frames e.2.records)
    (hsynced : d.Pairwise fun e _ => e.2.bytes.length ≤ e.2.synced) :
    d'.Pairwise (fun e _ => e.2.bytes = frames e.2.records) := by
  induction h with
  | nil => exact .nil
  | @keep segment f d d' n hn hrest ih =>
    obtain ⟨hf, hd⟩ := pairwise_cons.1 hsynced
    refine pairwise_cons.2 ⟨fun e he => ?_, ih (fun e he => hbytes e (mem_cons_of_mem _ he)) hd⟩
    obtain ⟨f', -, hf', -⟩ := hrest.origin he
    have hlen : f.bytes.length ≤ f.synced := hf _ hf'
    show f.bytes.take n = frames f.records
    rw [take_of_length_le (by omega)]
    exact hbytes (segment, f) mem_cons_self
  | lose _ _ ih =>
    exact ih (fun e he => hbytes e (mem_cons_of_mem _ he)) (pairwise_cons.1 hsynced).2

theorem above_prefix {floor} (hbytes : ∀ e ∈ d, e.2.bytes = frames e.2.records)
    (hsynced : d.Pairwise fun e _ => e.2.bytes.length ≤ e.2.synced)
    (hloose : ∀ e ∈ d, e.2.link ≠ .linked → ∀ r ∈ e.2.records, r.1 ≤ floor) :
    ∃ lost, above floor (survivors d') ++ lost = above floor (recordsOf d) := by
  induction h with
  | nil => exact ⟨[], rfl⟩
  | @keep segment f d d' n hn hrest ih =>
    obtain ⟨hf, hd⟩ := pairwise_cons.1 hsynced
    cases d with
    | nil =>
      cases hrest
      obtain ⟨lost, hlost⟩ := fitting_prefix (f.bytes.take n).length f.records
      refine ⟨above floor lost, ?_⟩
      show above floor (fitting _ _ ++ []) ++ _ = above floor (f.records ++ [])
      rw [append_nil, append_nil, ← above_append, hlost]
    | cons e d =>
      have hlen : f.bytes.length ≤ f.synced := hf e mem_cons_self
      have hframes : f.bytes = frames f.records := hbytes (segment, f) mem_cons_self
      obtain ⟨lost, hlost⟩ := ih (fun e he => hbytes e (mem_cons_of_mem _ he)) hd
        (fun e he => hloose e (mem_cons_of_mem _ he))
      refine ⟨lost, ?_⟩
      have hfit : fitting (f.bytes.take n).length f.records = f.records := by
        refine fitting_of_length_le ?_
        refine Nat.le_of_eq ?_
        rw [← hframes, take_of_length_le (by omega)]
      rw [survivors_cons, recordsOf_cons, above_append, above_append, append_assoc, hlost]
      simp only [hfit]
  | @lose segment f d d' hl hrest ih =>
    obtain ⟨lost, hlost⟩ := ih (fun e he => hbytes e (mem_cons_of_mem _ he))
      (pairwise_cons.1 hsynced).2 fun e he => hloose e (mem_cons_of_mem _ he)
    refine ⟨lost, ?_⟩
    rw [recordsOf_cons, above_append, hlost,
      above_eq_nil (hloose (segment, f) mem_cons_self hl), nil_append]

end

end Crashed

/-- What a stop makes of sound files. -/
theorem cut_of_crash {floor n d'} (h : Sound floor n d) {kept} (hc : d.crash kept = some d') :
    Cut d' ∧ (d'.map (·.1)).Pairwise (· < ·) ∧
      ∃ m, above floor (survivors d') = List.range' (floor + 1) m := by
  have hd := crashed_of_crash hc
  refine ⟨⟨fun e he => ?_, fun e he => ?_, fun e he => ?_, hd.whole h.bytes h.synced,
    h.inc.sublist (hd.records_sublist.map _)⟩, h.ids.sublist hd.ids_sublist, ?_⟩
  · obtain ⟨f, n, hf, -⟩ := hd.origin he
    exact h.pos (e.1, f) hf
  · obtain ⟨f, n, hf, hrecords, -⟩ := hd.origin he
    rw [hrecords]
    exact h.framed _ hf
  · obtain ⟨f, n, hf, hrecords, hbytes⟩ := hd.origin he
    have hframes : f.bytes = frames f.records := h.bytes _ hf
    rw [hbytes, hrecords, hframes, take_eq_take_iff, length_take]
    omega
  · obtain ⟨lost, hlost⟩ := hd.above_prefix h.bytes h.synced h.loose
    rw [h.run] at hlost
    obtain ⟨m, -, hm, -⟩ := List.range'_eq_append_iff.1 hlost.symm
    exact ⟨m, hm⟩

/-! ## File operations -/

theorem mem_onFile {segment} {g : File → File} {e} (h : e ∈ onFile segment g d) :
    ∃ f, (e.1, f) ∈ d ∧ (e.2 = f ∨ e.1 = segment ∧ e.2 = g f) := by
  obtain ⟨⟨i, f⟩, he', rfl⟩ := mem_map.1 h
  by_cases hs : i = segment
  · exact ⟨f, by simpa [hs] using he', .inr (by simp [hs])⟩
  · exact ⟨f, by simpa [hs] using he', .inl (by simp [hs])⟩

theorem ids_onFile (segment : Nat) (g : File → File) (d : Directory) :
    (onFile segment g d).map (·.1) = d.map (·.1) := by
  rw [onFile, map_map]
  refine map_congr_left fun e _ => ?_
  by_cases hs : e.1 = segment <;> simp [hs]

theorem recordsOf_onFile {g : File → File} (hg : ∀ f, (g f).records = f.records) (segment : Nat)
    (d : Directory) : recordsOf (onFile segment g d) = recordsOf d := by
  induction d with
  | nil => rfl
  | cons e d ih =>
    by_cases hs : e.1 = segment
    · simpa [onFile, hs, hg] using ih
    · simpa [onFile, hs] using ih

theorem onFile_last {segment f} (g : File → File)
    (hids : ((d ++ [(segment, f)]).map (·.1)).Pairwise (· < ·)) :
    onFile segment g (d ++ [(segment, f)]) = d ++ [(segment, g f)] := by
  have hd : onFile segment g d = d := by
    refine (map_congr_left fun e he => ?_).trans (map_id d)
    rw [map_append, pairwise_append] at hids
    have hlt : e.1 < segment := hids.2.2 e.1 (mem_map_of_mem he) segment (by simp)
    rw [if_neg (by omega)]
    rfl
  calc onFile segment g (d ++ [(segment, f)])
      = onFile segment g d ++ onFile segment g [(segment, f)] := map_append
    _ = d ++ [(segment, g f)] := by rw [hd]; simp [onFile]

namespace Sound

variable {floor n : Nat} {d : Directory}

theorem serial_le (h : Sound floor n d) {r} (hr : r ∈ recordsOf d) : r.1 ≤ floor + n := by
  by_cases hfloor : floor < r.1
  · have hmem : r.1 ∈ above floor (recordsOf d) :=
      mem_filter.2 ⟨mem_map_of_mem hr, by simpa using hfloor⟩
    rw [h.run, mem_range'_1] at hmem
    omega
  · omega

variable {segment : Nat}

section

variable (h : Sound floor n d)
include h

theorem onFile {g : File → File} (hrecords : ∀ f, (g f).records = f.records)
    (hbytes : ∀ f, (g f).bytes = f.bytes)
    (hsynced : ∀ f, f.synced ≤ (g f).synced ∨ f.bytes.length ≤ (g f).synced)
    (hloose : ∀ f, (segment, f) ∈ d → (g f).link ≠ .linked → f.link ≠ .linked ∨ ∀ r ∈ f.records,
    r.1 ≤ floor) :
    Sound floor n (onFile segment g d) where
  pos e he := by
    obtain ⟨f, hf, -⟩ := mem_onFile he
    exact h.pos (e.1, f) hf
  ids := by
    rw [ids_onFile]
    exact h.ids
  framed e he := by
    obtain ⟨f, hf, he | ⟨-, he⟩⟩ := mem_onFile he
    · rw [he]
      exact h.framed _ hf
    · rw [he, hrecords]
      exact h.framed _ hf
  bytes e he := by
    obtain ⟨f, hf, he | ⟨-, he⟩⟩ := mem_onFile he
    · rw [he]
      exact h.bytes _ hf
    · rw [he, hrecords, hbytes]
      exact h.bytes _ hf
  synced := by
    rw [Directory.onFile, pairwise_map]
    refine h.synced.imp fun {e _} hlen => ?_
    split_ifs with hs
    · show (g e.2).bytes.length ≤ (g e.2).synced
      rw [hbytes]
      rcases hsynced e.2 with hg | hg <;> omega
    · exact hlen
  inc := by
    rw [recordsOf_onFile hrecords]
    exact h.inc
  loose e he hl := by
    obtain ⟨f, hf, he | ⟨hs, he⟩⟩ := mem_onFile he
    · rw [he] at hl ⊢
      exact h.loose _ hf hl
    · rw [he] at hl
      rw [he, hrecords]
      subst hs
      exact (hloose f hf hl).elim (h.loose _ hf) id
  run := by
    rw [recordsOf_onFile hrecords]
    exact h.run

theorem sync (segment : Nat) : Sound floor n (d.perform (.sync segment)) :=
  h.onFile (g := fun f => { f with synced := f.bytes.length }) (fun _ => rfl) (fun _ => rfl)
    (fun _ => .inr (Nat.le_refl _)) fun _ _ hl => .inl hl

theorem unlink (hrecords : ∀ f, (segment, f) ∈ d → ∀ r ∈ f.records, r.1 ≤ floor) :
    Sound floor n (d.perform (.unlink segment)) :=
  h.onFile (g := fun f => { f with link := .removed }) (fun _ => rfl) (fun _ => rfl)
    (fun _ => .inl (Nat.le_refl _)) fun f hf _ => .inr (hrecords f hf)

theorem create (hnew : ∀ e ∈ d, e.1 < segment) (hpos : segment ≠ 0)
    (hsynced : ∀ e ∈ d, e.2.bytes.length ≤ e.2.synced) :
    Sound floor n (d.perform (.create segment)) where
  pos e he := by
    rcases mem_append.1 he with he | he
    · exact h.pos e he
    · rw [mem_singleton.1 he]
      exact hpos
  ids := by
    rw [perform, map_append, pairwise_append]
    refine ⟨h.ids, by simp, fun i hi j hj => ?_⟩
    obtain ⟨e, he, rfl⟩ := mem_map.1 hi
    obtain rfl : j = segment := by simpa using hj
    exact hnew e he
  framed e he r hr := by
    rcases mem_append.1 he with he | he
    · exact h.framed e he r hr
    · rw [mem_singleton.1 he] at hr
      simp at hr
  bytes e he := by
    rcases mem_append.1 he with he | he
    · exact h.bytes e he
    · rw [mem_singleton.1 he]
      rfl
  synced := by
    rw [perform, pairwise_append]
    exact ⟨h.synced, by simp, fun e he _ _ => hsynced e he⟩
  inc := by
    rw [perform, recordsOf_append]
    simpa [recordsOf] using h.inc
  loose e he hl r hr := by
    rcases mem_append.1 he with he | he
    · exact h.loose e he hl r hr
    · rw [mem_singleton.1 he] at hr
      simp at hr
  run := by
    rw [perform, recordsOf_append]
    simpa [recordsOf] using h.run

end

theorem above_kept (hloose : ∀ e ∈ d, e.2.link ≠ .linked → ∀ r ∈ e.2.records, r.1 ≤ floor) :
    above floor (recordsOf (d.perform .syncDirectory)) = above floor (recordsOf d) := by
  induction d with
  | nil => rfl
  | cons e d ih =>
    have hrest := ih fun e he => hloose e (mem_cons_of_mem _ he)
    by_cases hl : e.2.link = .removed
    · have hnone : above floor e.2.records = [] :=
        above_eq_nil (hloose e mem_cons_self (by rw [hl]; simp))
      rw [recordsOf_cons, above_append, hnone, nil_append, ← hrest]
      simp [perform, hl]
    · rw [recordsOf_cons, above_append, ← hrest, ← above_append]
      simp [perform, hl]

theorem syncDirectory (h : Sound floor n d) : Sound floor n (d.perform .syncDirectory) := by
  have hmem : ∀ e ∈ d.perform .syncDirectory,
      ∃ f, (e.1, f) ∈ d ∧ e.2 = { f with link := .linked } := by
    intro e he
    obtain ⟨e', he', rfl⟩ := mem_map.1 he
    exact ⟨e'.2, (mem_filter.1 he').1, rfl⟩
  have hrecords : (recordsOf (d.perform .syncDirectory)).Sublist (recordsOf d) := by
    rw [recordsOf, recordsOf, perform, flatMap_map]
    exact filter_sublist.flatMap _
  constructor
  · intro e he
    obtain ⟨f, hf, -⟩ := hmem e he
    exact h.pos (e.1, f) hf
  · rw [perform, map_map]
    exact h.ids.sublist (filter_sublist.map _)
  · intro e he
    obtain ⟨f, hf, hef⟩ := hmem e he
    rw [hef]
    exact h.framed _ hf
  · intro e he
    obtain ⟨f, hf, hef⟩ := hmem e he
    rw [hef]
    exact h.bytes _ hf
  · rw [perform, pairwise_map]
    exact h.synced.sublist filter_sublist
  · exact h.inc.sublist (hrecords.map _)
  · intro e he hl
    obtain ⟨f, hf, hef⟩ := hmem e he
    rw [hef] at hl
    exact absurd rfl hl
  · rw [above_kept h.loose]
    exact h.run

theorem write {f} (h : Sound floor n (d ++ [(segment, f)])) (hlinked : f.link = .linked)
    {data} (hr : Framed (floor + n + 1, data)) :
    Sound floor (n + 1) (perform (d ++ [(segment, f)]) (.write segment (floor + n + 1, data))) := by
  have hfiles : perform (d ++ [(segment, f)]) (.write segment (floor + n + 1, data)) =
      d ++ [(segment, { f with
        records := f.records ++ [(floor + n + 1, data)]
        bytes := f.bytes ++ frameBytes (floor + n + 1) data })] :=
    onFile_last (fun f => { f with
      records := f.records ++ [(floor + n + 1, data)]
      bytes := f.bytes ++ frameBytes (floor + n + 1) data }) h.ids
  have hrecords : recordsOf (d ++ [(segment, { f with
        records := f.records ++ [(floor + n + 1, data)]
        bytes := f.bytes ++ frameBytes (floor + n + 1) data })]) =
      recordsOf (d ++ [(segment, f)]) ++ [(floor + n + 1, data)] := by
    simp [recordsOf]
  have hlast : (segment, f) ∈ d ++ [(segment, f)] := by simp
  rw [hfiles]
  constructor
  · intro e he
    rcases mem_append.1 he with he | he
    · exact h.pos e (mem_append_left _ he)
    · rw [mem_singleton.1 he]
      exact h.pos (segment, f) hlast
  · have := h.ids
    rw [map_append] at this ⊢
    exact this
  · intro e he r hr'
    rcases mem_append.1 he with he | he
    · exact h.framed e (mem_append_left _ he) r hr'
    rw [mem_singleton.1 he] at hr'
    rcases mem_append.1 hr' with hr' | hr'
    · exact h.framed _ hlast r hr'
    · rw [mem_singleton.1 hr']
      exact hr
  · intro e he
    rcases mem_append.1 he with he | he
    · exact h.bytes e (mem_append_left _ he)
    · have hbytes : f.bytes = frames f.records := h.bytes _ hlast
      rw [mem_singleton.1 he]
      simp [hbytes]
  · obtain ⟨hd, -, hlt⟩ := pairwise_append.1 h.synced
    exact pairwise_append.2 ⟨hd, by simp, fun e he _ _ => hlt e he _ mem_cons_self⟩
  · rw [hrecords, map_append, pairwise_append]
    refine ⟨h.inc, by simp, fun x hx y hy => ?_⟩
    obtain ⟨r, hr', rfl⟩ := mem_map.1 hx
    obtain rfl : y = floor + n + 1 := by simpa using hy
    have := h.serial_le hr'
    omega
  · intro e he hl
    rcases mem_append.1 he with he | he
    · exact h.loose e (mem_append_left _ he) hl
    · rw [mem_singleton.1 he] at hl
      exact absurd hlinked hl
  · have hnew : above floor [(floor + n + 1, data)] = [floor + n + 1] := by
      have : floor < floor + n + 1 := by omega
      simp [above, this]
    have hval : floor + n + 1 = floor + 1 + 1 * n := by omega
    rw [hrecords, above_append, h.run, hnew, hval, List.range'_concat]

theorem raise (h : Sound floor n d) {floor'} (hle : floor ≤ floor') :
    Sound floor' (floor + n - floor') d where
  pos := h.pos
  ids := h.ids
  framed := h.framed
  bytes := h.bytes
  synced := h.synced
  inc := h.inc
  loose e he hl r hr := Nat.le_trans (h.loose e he hl r hr) hle
  run := above_of_le h.run hle

end Sound

end Mqtts.Journal

import Mqtts.Durable.RetainedSpec
import Mathlib.Data.List.Induction

/-!
# Where the retained map ends

A commit moves the chain of the mutations that wait on by one. A failed write puts back what the
failing mutation took, but only if no later mutation on the topic is waiting; the earlier ones of
several failing mutations do nothing, and the last one puts back the item of its predecessor, which
was never committed. So one failed mutation on a topic restores the last committed value, and two or
more leave nothing visible.
-/

namespace Mqtts.Durable

open Option List Std RetainRun

/-! ## The invariant -/

open RetainState

/-- The value of a topic after the mutations whose callback reported success. -/
def committedValue (start : Str → Option RetainedMessage) (outcomes : List (Mutation × Bool))
    (topic : Str) : Option RetainedMessage :=
  outcomes.foldl (fun v o => if o.2 ∧ o.1.topic = topic then o.1.value else v) (start topic)

variable (records : List StoredRetain) (outcomes : List (Mutation × Bool)) (m : Mutation)

def failedOn (topic : Str) : Nat :=
  outcomes.countP fun o => !o.2 && o.1.topic == topic

def pendingOn (queue : List Mutation) (topic : Str) : List Mutation :=
  queue.filter (·.topic == topic)

structure Holds (admissible : Nat → Prop) (now : Int) (slot : Option RetainedItem)
    (value : Option RetainedMessage) : Prop where
  item : ∀ i, slot = some i → admissible i.generation ∧ value = some i.record.toMessage
  present : ∀ m, value = some m → expiredAt m.expiresMs now = false → slot ≠ none

def Shows (flags : List Nat) (now : Int) (slot : Option RetainedItem)
    (value : Option RetainedMessage) : Prop :=
  Holds (· ∈ flags) now slot value

def FromMutation (now : Int) (m : Mutation) (slot : Option RetainedItem) : Prop :=
  Holds (· = m.generation) now slot m.value

/-- Each mutation that waits has taken the item of the one before it out of the map, the first one
the last committed item, and the map holds the item of the last one. -/
def Linked (now : Int) : List Mutation → Option RetainedItem → Prop
  | [], _ => True
  | [m], slot => FromMutation now m slot
  | m :: m' :: rest, slot => FromMutation now m m'.previous ∧ Linked now (m' :: rest) slot

def Unflagged (flags : List Nat) (slot : Option RetainedItem) : Prop :=
  ∀ item, slot = some item → item.generation ∉ flags

section Monotone

variable {now now' : Int} {slot slot' : Option RetainedItem} {value : Option RetainedMessage}
  {m : Mutation}

theorem Holds.thin {ok ok' : Nat → Prop} (h : Holds ok now slot value) (hok : ∀ g, ok g → ok' g)
    (hnow : now ≤ now') (hthin : Thinned now' slot slot') : Holds ok' now' slot' value where
  item i hi := by
    subst hi
    obtain ⟨j, hj, hrec, hgen⟩ := hthin.of_some
    obtain ⟨h1, h2⟩ := h.item j hj
    exact ⟨hgen ▸ hok _ h1, by rw [h2, hrec]⟩
  present msg hv hexp hnone := by
    subst hnone
    have hbefore : expiredAt msg.expiresMs now = false := by
      rw [Bool.eq_false_iff] at hexp ⊢
      exact fun he => hexp (expiredAt_mono hnow he)
    obtain ⟨i, rfl⟩ := ne_none_iff_exists'.1 (h.present msg hv hbefore)
    have hval := (h.item i rfl).2
    rw [hv, Option.some.injEq] at hval
    have hgone : expiredAt msg.expiresMs now' := by
      rw [hval]
      exact hthin.of_none
    rw [hgone] at hexp
    cases hexp

theorem Unflagged.thin {flags} (h : Unflagged flags slot)
    (hthin : Thinned now slot slot') : Unflagged flags slot' := by
  rintro i rfl
  obtain ⟨j, hj, -, hgen⟩ := hthin.of_some
  exact hgen ▸ h j hj

theorem FromMutation.thin (h : FromMutation now m slot) (hnow : now ≤ now')
    (hthin : Thinned now' slot slot') : FromMutation now' m slot' :=
  Holds.thin h (fun _ hg => hg) hnow hthin

theorem Linked.thin (hnow : now ≤ now') (hthin : Thinned now' slot slot') :
    ∀ {pending}, Linked now pending slot → Linked now' pending slot'
  | [], _ => trivial
  | [_], h => FromMutation.thin h hnow hthin
  | _ :: _ :: _, h => ⟨h.1.thin hnow (.refl _), Linked.thin hnow hthin h.2⟩

theorem Linked.append (hm : FromMutation now m slot') (hslot : m.previous = slot) :
    ∀ {pending}, Linked now pending slot → Linked now (pending ++ [m]) slot'
  | [], _ => hm
  | [_], h => ⟨hslot ▸ h, hm⟩
  | _ :: _ :: _, h => ⟨h.1, Linked.append hm hslot h.2⟩

theorem Linked.last_previous : ∀ {pending first last},
      Linked now (first :: pending) slot → pending.getLast? = some last →
      ∀ item, last.previous = some item → ∃ m ∈ first :: pending, item.generation = m.generation
  | [], _, _, _, hlast, _, _ => by cases hlast
  | [_], first, last, h, hlast, item, hitem => by
    cases hlast
    exact ⟨first, mem_cons_self, (h.1.item item hitem).1⟩
  | m :: m' :: rest, first, last, h, hlast, item, hitem => by
    obtain ⟨x, hx, hgen⟩ := Linked.last_previous h.2 hlast item hitem
    exact ⟨x, mem_cons_of_mem _ hx, hgen⟩

end Monotone

/-- The chain of a topic and what is committed on it. -/
structure TopicInv (start : Str → Option RetainedMessage) (r : RetainRun) (t : Str) : Prop where
  quiet : pendingOn r.queue t = [] →
    if failedOn r.outcomes t ≤ 1 then
      Shows r.store.flags r.now r.store.retained[t]? (committedValue start r.outcomes t)
    else Unflagged r.store.flags r.store.retained[t]?
  last : ∀ m, (pendingOn r.queue t).getLast? = some m →
    r.store.retainEpoch[t]? = some m.generation ∧
    (∀ i, r.store.retained[t]? = some i → i.generation = m.generation) ∧
    (failedOn r.outcomes t ≠ 0 → Unflagged r.store.flags m.previous)
  chain : ∀ m, (pendingOn r.queue t).head? = some m → failedOn r.outcomes t = 0 →
    Shows r.store.flags r.now m.previous (committedValue start r.outcomes t) ∧
    Linked r.now (pendingOn r.queue t) r.store.retained[t]?

structure RunInv (start : Str → Option RetainedMessage) (r : RetainRun) : Prop where
  expiry : r.store.ExpiryInv
  generation_le : ∀ m ∈ r.queue, m.generation ≤ r.store.nextRetainGeneration
  generation_lt : r.queue.Pairwise fun m m' => m.generation < m'.generation
  flag_le : ∀ g ∈ r.store.flags, g ≤ r.store.nextRetainGeneration
  flag_lt : ∀ g ∈ r.store.flags, ∀ m ∈ r.queue, g < m.generation
  epoch_ne : ∀ (t : Str) g, r.store.retainEpoch[t]? = some g → g ≠ 0
  value_topic : ∀ m ∈ r.queue, ∀ msg, m.value = some msg → msg.topic = m.topic
  committed_topic : ∀ t msg, committedValue start r.outcomes t = some msg → msg.topic = t
  not_failed : r.failed = false → ∀ t, failedOn r.outcomes t = 0
  topics : ∀ t, TopicInv start r t

variable {start : Str → Option RetainedMessage} {r : RetainRun}

theorem TopicInv.thin {t r'} (h : TopicInv start r t)
    (hqueue : pendingOn r'.queue t = pendingOn r.queue t)
    (hcommitted : committedValue start r'.outcomes t = committedValue start r.outcomes t)
    (hfailed : failedOn r'.outcomes t = failedOn r.outcomes t)
    (hflags : ∀ g ∈ r.store.flags, g ∈ r'.store.flags)
    (hsame : failedOn r.outcomes t ≠ 0 → r'.store.flags = r.store.flags) (hnow : r.now ≤ r'.now)
    (hepoch : r'.store.retainEpoch[t]? = r.store.retainEpoch[t]?)
    (hthin : Thinned r'.now r.store.retained[t]? r'.store.retained[t]?) :
    TopicInv start r' t where
  quiet hnil := by
    have hq := h.quiet (hqueue ▸ hnil)
    rw [hcommitted, hfailed]
    split
    · rename_i hle
      rw [if_pos hle] at hq
      exact Holds.thin hq hflags hnow hthin
    · rename_i hle
      rw [if_neg hle] at hq
      rw [hsame (by omega)]
      exact Unflagged.thin hq hthin
  last m hm := by
    obtain ⟨h1, h2, h3⟩ := h.last m (hqueue ▸ hm)
    refine ⟨hepoch ▸ h1, fun i hi => ?_, fun hne => ?_⟩
    · rw [hi] at hthin
      obtain ⟨j, hj, -, hgen⟩ := hthin.of_some
      exact hgen ▸ h2 j hj
    · rw [hfailed] at hne
      rw [hsame hne]
      exact h3 hne
  chain m hm hzero := by
    rw [hfailed] at hzero
    obtain ⟨h1, h2⟩ := h.chain m (hqueue ▸ hm) hzero
    rw [hcommitted, hqueue]
    exact ⟨Holds.thin h1 hflags hnow (.refl _), h2.thin hnow hthin⟩

theorem RunInv.thin {r'} (h : RunInv start r) (hexpiry : r'.store.ExpiryInv)
    (hqueue : r'.queue = r.queue) (houtcomes : r'.outcomes = r.outcomes)
    (hfailed : r'.failed = r.failed) (hflags : r'.store.flags = r.store.flags)
    (hnext : r.store.nextRetainGeneration ≤ r'.store.nextRetainGeneration) (hnow : r.now ≤ r'.now)
    (hepoch : ∀ t : Str, r'.store.retainEpoch[t]? = r.store.retainEpoch[t]?)
    (hthin : ∀ t : Str, Thinned r'.now r.store.retained[t]? r'.store.retained[t]?) :
    RunInv start r' where
  expiry := hexpiry
  generation_le m hm := (h.generation_le m (hqueue ▸ hm)).trans hnext
  generation_lt := hqueue ▸ h.generation_lt
  flag_le g hg := (h.flag_le g (hflags ▸ hg)).trans hnext
  flag_lt g hg m hm := h.flag_lt g (hflags ▸ hg) m (hqueue ▸ hm)
  epoch_ne t g hg := h.epoch_ne t g (hepoch t ▸ hg)
  value_topic m hm := h.value_topic m (hqueue ▸ hm)
  committed_topic := houtcomes ▸ h.committed_topic
  not_failed hf := houtcomes ▸ h.not_failed (hfailed ▸ hf)
  topics t := (h.topics t).thin (by rw [hqueue]) (by rw [houtcomes]) (by rw [houtcomes])
    (fun g hg => hflags ▸ hg) (fun _ => hflags) hnow (hepoch t) (hthin t)

/-! ## Admissions -/

theorem runInv_eraseExpired (h : RunInv start r) :
    RunInv start { r with store := r.store.eraseExpiredRetained r.now } := by
  obtain ⟨h1, h2, h3, h4, h5⟩ := eraseExpiredLoop_spec r.now r.store.retainExpiry.size r.store
    h.expiry
  exact h.thin h1 rfl rfl rfl h4 h5.ge (Int.le_refl _) (fun t => by rw [← h3]; rfl) h2

theorem pendingOn_append (queue : List Mutation) (m : Mutation) (t : Str) :
    pendingOn (queue ++ [m]) t = if m.topic = t then pendingOn queue t ++ [m] else pendingOn queue
      t := by
  by_cases h : m.topic = t <;> simp [pendingOn, filter_append, h]

structure Admission (s s' : RetainState) (now : Int) (m : Mutation) : Prop where
  generation : m.generation = s.nextRetainGeneration + 1
  next : s'.nextRetainGeneration = m.generation
  previous : m.previous = s.retained[m.topic]?
  previousEpoch : m.previousEpoch = (s.retainEpoch[m.topic]?).getD 0
  epoch : ∀ t, s'.retainEpoch[t]? = if m.topic = t then some m.generation else s.retainEpoch[t]?
  others : ∀ t, m.topic ≠ t → s'.retained[t]? = s.retained[t]?
  own : FromMutation now m s'.retained[m.topic]?
  flags : s'.flags = s.flags
  expiry : s.ExpiryInv → s'.ExpiryInv
  value_topic : ∀ msg, m.value = some msg → msg.topic = m.topic

theorem admission_clear (s : RetainState) (now : Int) (topic : Str) :
    Admission s (s.begin topic none).2 now (s.begin topic none).1 where
  generation := rfl
  next := rfl
  previous := takeRetained_fst
  previousEpoch := rfl
  epoch t := by simp [begin]
  others t ht := by simpa [begin] using fun h => absurd h ht
  own := ⟨fun i hi => by simp [begin] at hi, fun _ hv => by cases hv⟩
  flags := flags_takeRetained
  expiry := expiryInv_takeRetained
  value_topic _ hv := by cases hv

theorem admission_put (s : RetainState) (now : Int) (m : RetainedMessage) : Admission s
      (if expiredAt m.expiresMs now then (s.begin m.topic (some m)).2
        else (s.begin m.topic (some m)).2.setRetained m.topic
          { record := m.toRecord, width := 0,
            generation := (s.begin m.topic (some m)).1.generation })
      now (s.begin m.topic (some m)).1 where
  generation := rfl
  next := by
    split
    · rfl
    · exact next_setRetained
  previous := takeRetained_fst
  previousEpoch := rfl
  epoch t := by split <;> simp [begin]
  others t ht := by
    have ht' : m.topic ≠ t := ht
    split <;> simp [begin, ht']
  own := by
    refine ⟨fun i hi => ?_, fun msg hv hexp => ?_⟩
    · by_cases he : expiredAt m.expiresMs now
      · simp [he, begin] at hi
      have hi' : some i = some ⟨m.toRecord, retainRecordWidth m.toRecord,
          (s.begin m.topic (some m)).1.generation⟩ := by
        simpa [he, begin] using hi.symm
      cases hi'
      exact ⟨rfl, by rw [toMessage_toRecord]; rfl⟩
    · cases hv
      simp [hexp, begin]
  flags := by
    split
    · exact flags_takeRetained
    · rw [flags_setRetained]
      exact flags_takeRetained
  expiry h := by
    split
    · exact expiryInv_takeRetained h
    · exact expiryInv_setRetained (expiryInv_takeRetained h)
  value_topic msg hv := by
    cases hv
    rfl

section Enlist

variable {s' : RetainState} {m : Mutation}

theorem RunInv.enlist (h : RunInv start r) (hf : r.failed = false)
    (ha : Admission r.store s' r.now m) :
    RunInv start { r with store := s', queue := r.queue ++ [m] } where
  expiry := ha.expiry h.expiry
  generation_le x hx := by
    show x.generation ≤ s'.nextRetainGeneration
    rw [ha.next]
    rcases mem_append.1 hx with hx | hx
    · have := h.generation_le x hx
      rw [ha.generation]
      omega
    · rw [mem_singleton.1 hx]
  generation_lt := by
    refine pairwise_append.2 ⟨h.generation_lt, pairwise_singleton _ _, ?_⟩
    intro x hx y hy
    rw [mem_singleton.1 hy, ha.generation]
    have := h.generation_le x hx
    omega
  flag_le g hg := by
    show g ≤ s'.nextRetainGeneration
    rw [ha.next, ha.generation]
    have := h.flag_le g (ha.flags ▸ hg)
    omega
  flag_lt g hg x hx := by
    have hg' : g ∈ r.store.flags := ha.flags ▸ hg
    rcases mem_append.1 hx with hx | hx
    · exact h.flag_lt g hg' x hx
    · rw [mem_singleton.1 hx, ha.generation]
      have := h.flag_le g hg'
      omega
  epoch_ne t g hg := by
    have hg' := (ha.epoch t).symm.trans hg
    split at hg'
    · cases hg'
      rw [ha.generation]
      omega
    · exact h.epoch_ne t g hg'
  value_topic x hx := by
    rcases mem_append.1 hx with hx | hx
    · exact h.value_topic x hx
    · rw [mem_singleton.1 hx]
      exact ha.value_topic
  committed_topic := h.committed_topic
  not_failed := h.not_failed
  topics t := by
    by_cases ht : m.topic = t
    · have hpend : pendingOn (r.queue ++ [m]) t = pendingOn r.queue t ++ [m] := by
        rw [pendingOn_append, if_pos ht]
      have hnone : failedOn r.outcomes t = 0 := h.not_failed hf t
      have hown : FromMutation r.now m s'.retained[t]? := ht ▸ ha.own
      have hprev : m.previous = r.store.retained[t]? := ht ▸ ha.previous
      refine ⟨fun hnil => ?_, fun x hx => ?_, fun x hx _ => ?_⟩
      · rw [hpend] at hnil
        exact absurd hnil (by simp)
      · rw [hpend, List.getLast?_append, List.getLast?_singleton, some_or] at hx
        cases hx
        refine ⟨by rw [ha.epoch, if_pos ht], fun i hi => (hown.item i hi).1, ?_⟩
        exact fun hne => absurd hnone hne
      · rw [hpend] at hx ⊢
        simp only [ha.flags]
        cases hp : pendingOn r.queue t with
        | nil =>
          rw [hp] at hx
          cases hx
          have hq := (h.topics t).quiet hp
          rw [if_pos (by omega)] at hq
          exact ⟨hprev ▸ hq, hown⟩
        | cons y ys =>
          rw [hp] at hx
          cases hx
          obtain ⟨h1, h2⟩ := (h.topics t).chain x (by rw [hp]; rfl) hnone
          rw [hp] at h2
          exact ⟨h1, Linked.append hown hprev h2⟩
    · refine (h.topics t).thin ?_ rfl rfl (fun g hg => ?_) (fun _ => ha.flags) (Int.le_refl _) ?_ ?_
      · rw [pendingOn_append, if_neg ht]
      · exact ha.flags ▸ hg
      · rw [ha.epoch, if_neg ht]
      · rw [ha.others t ht]
        exact .refl _

theorem RunInv.refuse (h : RunInv start r) (ha : Admission r.store s' r.now m) :
    RunInv start { r with store := s'.rollBack r.now m } := by
  obtain ⟨h1, hown, h2, h3, h4, h5⟩ := restoreRetainedItem_latest r.now m.previousEpoch m.previous
    (ha.expiry h.expiry) (by rw [ha.epoch, if_pos rfl]) fun i hi => (ha.own.item i hi).1
  refine h.thin h1 rfl rfl rfl (h4.trans ha.flags) ?_ (Int.le_refl _) (fun t => ?_) fun t => ?_
  · show r.store.nextRetainGeneration ≤ (s'.rollBack r.now m).nextRetainGeneration
    rw [rollBack, h5, ha.next, ha.generation]
    omega
  · refine (h3 t).trans ?_
    split
    · rename_i ht
      rw [ha.previousEpoch, ← ht]
      cases he : r.store.retainEpoch[m.topic]? with
      | none => simp
      | some g => simp [h.epoch_ne _ _ he]
    · rename_i ht
      rw [ha.epoch, if_neg ht]
  · show Thinned r.now r.store.retained[t]? (s'.rollBack r.now m).retained[t]?
    by_cases ht : m.topic = t
    · rw [← ht, ← ha.previous]
      exact hown
    · rw [rollBack, h2 t ht, ha.others t ht]
      exact .refl _

end Enlist

/-! ## Callbacks -/

theorem pendingOn_cons (rest : List Mutation) (t : Str) :
    pendingOn (m :: rest) t = if m.topic = t then m :: pendingOn rest t else pendingOn rest t := by
  by_cases h : m.topic = t <;> simp [pendingOn, h]

theorem committedValue_append (ok : Bool) (t : Str) :
    committedValue start (outcomes ++ [(m, ok)]) t =
      if ok ∧ m.topic = t then m.value else committedValue start outcomes t := by
  simp [committedValue]

theorem failedOn_append (ok : Bool) (t : Str) : failedOn (outcomes ++ [(m, ok)]) t =
      failedOn outcomes t + if ok = false ∧ m.topic = t then 1 else 0 := by
  cases ok <;> by_cases h : m.topic = t <;> simp [failedOn, countP_append, h]

section Commit

variable {m : Mutation} {s : RetainState}

@[simp] theorem retained_commit : (s.commit m).retained = s.retained := by
  unfold commit
  split <;> (simp only []; split <;> rfl)

@[simp] theorem next_commit : (s.commit m).nextRetainGeneration = s.nextRetainGeneration := by
  unfold commit
  split <;> (simp only []; split <;> rfl)

theorem expiryInv_commit (h : s.ExpiryInv) : (s.commit m).ExpiryInv := by
  unfold commit
  split <;> (simp only []; split <;> exact h)

theorem flags_commit :
    (s.commit m).flags = if m.value.isSome then m.generation :: s.flags else s.flags := by
  unfold commit
  split <;> (simp only []; split <;> simp_all)

theorem retainEpoch_commit (t : Str) : (s.commit m).retainEpoch[t]? = s.retainEpoch[t]? ∨
      t = m.topic ∧ s.retainEpoch[t]? = some m.generation ∧
        (s.commit m).retainEpoch[t]? = none := by
  unfold commit
  split <;>
  · simp only []
    split
    · rename_i hc
      by_cases ht : m.topic = t
      · subst ht
        exact .inr ⟨rfl, hc.1, by simp⟩
      · exact .inl (by simp [ht])
    · exact .inl rfl

end Commit

section Complete

variable {m : Mutation} {rest : List Mutation}

theorem RunInv.tail_lt (h : RunInv start r) (hq : r.queue = m :: rest) :
    ∀ x ∈ rest, m.generation < x.generation := by
  have hlt := h.generation_lt
  rw [hq] at hlt
  exact (pairwise_cons.1 hlt).1

theorem mem_flags_commit {g} :
    g ∈ (r.store.commit m).flags ↔ g ∈ r.store.flags ∨ m.value.isSome ∧ g = m.generation := by
  rw [flags_commit]
  split <;> simp_all [or_comm]

theorem pendingOn_own (hq : r.queue = m :: rest) :
    pendingOn r.queue m.topic = m :: pendingOn rest m.topic := by
  rw [hq, pendingOn_cons, if_pos rfl]

theorem getLast?_pendingOn_cons {t x} (hq : r.queue = m :: rest)
    (hx : (pendingOn rest t).getLast? = some x) : (pendingOn r.queue t).getLast? = some x := by
  rw [hq, pendingOn_cons]
  split
  · rw [List.getLast?_cons, hx, getD_some]
  · exact hx

section

variable (h : RunInv start r)
include h

theorem topicInv_commit_own (hf : r.failed = false) (hq : r.queue = m :: rest) :
    TopicInv start { r with
      store := r.store.commit m, queue := rest,
      outcomes := r.outcomes ++ [(m, true)] } m.topic := by
  have hzero := h.not_failed hf m.topic
  have hzero' : failedOn (r.outcomes ++ [(m, true)]) m.topic = 0 := by simp [failedOn_append, hzero]
  have hval : committedValue start (r.outcomes ++ [(m, true)]) m.topic = m.value := by
    simp [committedValue_append]
  have hpend := pendingOn_own hq
  obtain ⟨-, hlinked⟩ := (h.topics m.topic).chain m (by rw [hpend]; rfl) hzero
  rw [hpend] at hlinked
  -- The item of the mutation becomes a committed one.
  have hshow : ∀ slot, FromMutation r.now m slot →
      Shows (r.store.commit m).flags r.now slot m.value := by
    intro slot hslot
    refine ⟨fun i hi => ?_, hslot.present⟩
    obtain ⟨hgen, hv⟩ := hslot.item i hi
    exact ⟨mem_flags_commit.2 (.inr ⟨by rw [hv]; rfl, hgen⟩), hv⟩
  refine ⟨fun hnil => ?_, fun x hx => ?_, fun x hx _ => ?_⟩
  · rw [show pendingOn rest m.topic = [] from hnil] at hlinked
    simp only [hzero', hval, retained_commit, Nat.zero_le, if_true]
    exact hshow _ hlinked
  · obtain ⟨h1, h2, -⟩ := (h.topics m.topic).last x (getLast?_pendingOn_cons hq hx)
    have hmem : x ∈ rest := (mem_filter.1 (mem_of_getLast? hx)).1
    refine ⟨?_, by simpa using h2, fun hne => absurd hzero' hne⟩
    rcases retainEpoch_commit (s := r.store) (m := m) m.topic with he | ⟨-, he, -⟩
    · exact he.trans h1
    · rw [h1, Option.some.injEq] at he
      have := h.tail_lt hq x hmem
      omega
  · simp only [hval, retained_commit]
    cases hp : pendingOn rest m.topic with
    | nil => rw [show pendingOn rest m.topic = [] from hp] at hx; cases hx
    | cons y ys =>
      rw [show pendingOn rest m.topic = y :: ys from hp] at hx
      rw [hp] at hlinked
      cases hx
      exact ⟨hshow _ hlinked.1, hlinked.2⟩

theorem RunInv.commit (hf : r.failed = false) (hq : r.queue = m :: rest) :
    RunInv start { r with
      store := r.store.commit m, queue := rest, outcomes := r.outcomes ++ [(m, true)] } where
  expiry := expiryInv_commit h.expiry
  generation_le x hx := by
    simpa using h.generation_le x (hq ▸ mem_cons_of_mem _ hx)
  generation_lt := (pairwise_cons.1 (hq ▸ h.generation_lt)).2
  flag_le g hg := by
    simp only [next_commit]
    rcases mem_flags_commit.1 hg with hg | ⟨-, rfl⟩
    · exact h.flag_le g hg
    · exact h.generation_le m (hq ▸ mem_cons_self)
  flag_lt g hg x hx := by
    rcases mem_flags_commit.1 hg with hg | ⟨-, rfl⟩
    · exact h.flag_lt g hg x (hq ▸ mem_cons_of_mem _ hx)
    · exact h.tail_lt hq x hx
  epoch_ne t g hg := by
    rcases retainEpoch_commit (s := r.store) (m := m) t with he | ⟨-, -, he⟩
    · exact h.epoch_ne t g (he.symm.trans hg)
    · rw [show (r.store.commit m).retainEpoch[t]? = some g from hg] at he
      cases he
  value_topic x hx := h.value_topic x (hq ▸ mem_cons_of_mem _ hx)
  committed_topic t msg hmsg := by
    rw [committedValue_append] at hmsg
    split at hmsg
    · rename_i hc
      rw [← hc.2]
      exact h.value_topic m (hq ▸ mem_cons_self) msg hmsg
    · exact h.committed_topic t msg hmsg
  not_failed _ t := by simp [failedOn_append, h.not_failed hf t]
  topics t := by
    by_cases ht : m.topic = t
    · exact ht ▸ topicInv_commit_own h hf hq
    refine (h.topics t).thin ?_ ?_ ?_ (fun g hg => mem_flags_commit.2 (.inl hg))
      (fun hne => absurd (h.not_failed hf t) hne) (Int.le_refl _) ?_ ?_
    · rw [hq, pendingOn_cons, if_neg ht]
    · simp [committedValue_append, ht]
    · simp [failedOn_append]
    · rcases retainEpoch_commit (s := r.store) (m := m) t with he | ⟨he, -, -⟩
      · exact he
      · exact absurd he.symm ht
    · rw [retained_commit]
      exact .refl _

/-- What a rollback of the oldest mutation does: if it is the only one on its topic, the
slot gets back what it took; otherwise nothing happens. -/
theorem rollBack_spec (hq : r.queue = m :: rest) :
    let s' := r.store.rollBack r.now m
    s'.ExpiryInv ∧ s'.flags = r.store.flags ∧
    s'.nextRetainGeneration = r.store.nextRetainGeneration ∧
    (∀ t : Str, m.topic ≠ t → s'.retained[t]? = r.store.retained[t]? ∧
      s'.retainEpoch[t]? = r.store.retainEpoch[t]?) ∧
    (∀ (t : Str) (g : Nat), s'.retainEpoch[t]? = some g → g ≠ 0) ∧
    (pendingOn rest m.topic = [] → Thinned r.now m.previous s'.retained[m.topic]?) ∧
    (pendingOn rest m.topic ≠ [] → s' = r.store) := by
  have hpend := pendingOn_own hq
  by_cases hnil : pendingOn rest m.topic = []
  · obtain ⟨hepoch, hown, -⟩ := (h.topics m.topic).last m (by rw [hpend, hnil]; rfl)
    obtain ⟨h1, hthin, h2, h3, h4, h5⟩ :=
      restoreRetainedItem_latest r.now m.previousEpoch m.previous h.expiry hepoch hown
    refine ⟨h1, h4, h5, fun t ht => ⟨h2 t ht, (h3 t).trans (if_neg ht)⟩, fun t g hg => ?_,
      fun _ => hthin, fun hne => absurd hnil hne⟩
    · have hg' := (h3 t).symm.trans hg
      split at hg'
      · split at hg'
        · rename_i hne
          cases hg'
          exact hne
        · cases hg'
      · exact h.epoch_ne t g hg'
  · obtain ⟨x, hx⟩ : ∃ x, (pendingOn rest m.topic).getLast? = some x := by
      rw [← ne_none_iff_exists', ne_eq, List.getLast?_eq_none_iff]
      exact hnil
    obtain ⟨hepoch, -, -⟩ := (h.topics m.topic).last x (getLast?_pendingOn_cons hq hx)
    have hmem : x ∈ rest := (mem_filter.1 (mem_of_getLast? hx)).1
    have hlt := h.tail_lt hq x hmem
    have hsame : r.store.rollBack r.now m = r.store := by
      unfold rollBack restoreRetainedItem
      rw [if_pos]
      rw [hepoch, ne_eq, Option.some.injEq]
      omega
    intro s'
    rw [show s' = r.store from hsame]
    exact ⟨h.expiry, rfl, rfl, fun _ _ => ⟨rfl, rfl⟩, h.epoch_ne, fun he => absurd he hnil, fun _
      => rfl⟩

/-- A failed write on a topic: the only failure restores the committed value, and of
several in a row the last one restores an item that was never committed. -/
theorem topicInv_fail_own (hq : r.queue = m :: rest) : TopicInv start { r with
      store := r.store.rollBack r.now m, queue := rest, failed := true,
      outcomes := r.outcomes ++ [(m, false)] } m.topic := by
  obtain ⟨-, hflags, -, -, -, hlast, hsame⟩ := rollBack_spec h hq
  have hpend := pendingOn_own hq
  have hcount : failedOn (r.outcomes ++ [(m, false)]) m.topic =
      failedOn r.outcomes m.topic + 1 := by
    simp [failedOn_append]
  have hval : committedValue start (r.outcomes ++ [(m, false)]) m.topic =
      committedValue start r.outcomes m.topic := by
    simp [committedValue_append]
  refine ⟨fun hnil => ?_, fun x hx => ?_, fun x hx hzero => ?_⟩
  · have hthin := hlast hnil
    simp only [hcount, hval, hflags]
    split
    · rename_i hle
      obtain ⟨hshow, -⟩ := (h.topics m.topic).chain m (by rw [hpend]; rfl) (by omega)
      exact Holds.thin hshow (fun _ hg => hg) (Int.le_refl _) hthin
    · rename_i hle
      have hun := ((h.topics m.topic).last m (by rw [hpend, hnil]; rfl)).2.2 (by omega)
      exact hun.thin hthin
  · have hne : pendingOn rest m.topic ≠ [] := by
      intro hnil
      rw [show pendingOn rest m.topic = [] from hnil] at hx
      cases hx
    simp only [hsame hne]
    obtain ⟨h1, h2, h3⟩ := (h.topics m.topic).last x (getLast?_pendingOn_cons hq hx)
    refine ⟨h1, h2, fun _ => ?_⟩
    by_cases hzero : failedOn r.outcomes m.topic = 0
    · obtain ⟨-, hlinked⟩ := (h.topics m.topic).chain m (by rw [hpend]; rfl) hzero
      rw [hpend] at hlinked
      intro i hi hg
      obtain ⟨y, hy, hgen⟩ := Linked.last_previous hlinked hx i hi
      have hyq : y ∈ r.queue := by
        rw [← hpend] at hy
        exact (mem_filter.1 hy).1
      have := h.flag_lt _ hg y hyq
      omega
    · exact h3 hzero
  · have : failedOn (r.outcomes ++ [(m, false)]) m.topic = 0 := hzero
    omega

theorem RunInv.fail (hq : r.queue = m :: rest) : RunInv start { r with
      store := r.store.rollBack r.now m, queue := rest, failed := true,
      outcomes := r.outcomes ++ [(m, false)] } := by
  obtain ⟨h1, h2, h3, h4, h5, -, -⟩ := rollBack_spec h hq
  refine ⟨h1, fun x hx => ?_, ?_, fun g hg => ?_, fun g hg x hx => ?_, h5, fun x hx => ?_,
    fun t msg hmsg => ?_, fun hf => ?_, fun t => ?_⟩
  · simp only [h3]
    exact h.generation_le x (hq ▸ mem_cons_of_mem _ hx)
  · exact (pairwise_cons.1 (hq ▸ h.generation_lt)).2
  · simp only [h3]
    exact h.flag_le g (h2 ▸ hg)
  · exact h.flag_lt g (h2 ▸ hg) x (hq ▸ mem_cons_of_mem _ hx)
  · exact h.value_topic x (hq ▸ mem_cons_of_mem _ hx)
  · rw [committedValue_append, if_neg (by simp)] at hmsg
    exact h.committed_topic t msg hmsg
  · cases hf
  · by_cases ht : m.topic = t
    · exact ht ▸ topicInv_fail_own h hq
    refine (h.topics t).thin ?_ ?_ ?_ (fun g hg => h2.symm ▸ hg) (fun _ => h2) (Int.le_refl _)
      (h4 t ht).2 ?_
    · rw [hq, pendingOn_cons, if_neg ht]
    · simp [committedValue_append]
    · simp [failedOn_append, ht]
    · rw [(h4 t ht).1]
      exact .refl _

end

end Complete

/-! ## Runs -/

theorem runInv_put (h : RunInv start r) (hf : r.failed = false) (limit : Nat)
    (m : RetainedMessage) (accepted : Bool) :
    RunInv start { r with
      store := (r.store.putRetained limit r.now m accepted).2
      queue := r.queue ++ (r.store.putRetained limit r.now m accepted).1.toList } := by
  have he := runInv_eraseExpired h
  unfold putRetained
  split
  · simpa using h
  · simp only []
    split
    · simpa using he
    · have ha := admission_put (r.store.eraseExpiredRetained r.now) r.now m
      cases accepted with
      | true => exact he.enlist hf ha
      | false => simpa using he.refuse ha

theorem runInv_clear (h : RunInv start r) (hf : r.failed = false) (topic : Str) (accepted : Bool) :
    RunInv start { r with
      store := (r.store.clearRetained r.now topic accepted).2
      queue := r.queue ++ (r.store.clearRetained r.now topic accepted).1.toList } := by
  unfold clearRetained
  split
  · simpa using h
  · have ha := admission_clear r.store r.now topic
    cases accepted with
    | true => exact h.enlist hf ha
    | false => simpa using h.refuse ha

theorem runInv_step (h : RunInv start r) (limit : Nat) (e : RetainEvent) :
    RunInv start (r.step limit e) := by
  cases e with
  | put m accepted =>
    simp only [step, enlist]
    split
    · exact h
    · exact runInv_put h (by simp_all) limit m accepted
  | clear topic accepted =>
    simp only [step, enlist]
    split
    · exact h
    · exact runInv_clear h (by simp_all) topic accepted
  | callback ok =>
    simp only [step, complete]
    cases hq : r.queue with
    | nil => simpa [hq] using h
    | cons m rest =>
      cases hgood : (ok && !r.failed) with
      | true =>
        have hf : r.failed = false := by simp_all
        simpa [hgood, hf] using h.commit hf hq
      | false => simpa [hgood] using h.fail hq
  | tick ms =>
    have hle : r.now ≤ r.now + ms := by omega
    exact h.thin h.expiry rfl rfl rfl rfl (Nat.le_refl _) hle (fun _ => rfl) fun _ => .refl _

def loadedValue (topic : Str) : Option RetainedMessage :=
  ((loaded records).retained[topic]?).map (·.record.toMessage)

theorem loaded_spec : (loaded records).ExpiryInv ∧
    (∀ (t : Str) (i : RetainedItem), (loaded records).retained[t]? = some i →
      i.generation = 0 ∧ i.record.topic = t) ∧
    (loaded records).flags = [0] ∧
    (∀ t : Str, (loaded records).retainEpoch[t]? = none) := by
  unfold loaded
  induction records using List.reverseRecOn with
  | nil => refine ⟨fun e t h => ?_, fun t i h => ?_, rfl, fun t => ?_⟩ <;> simp_all
  | append_singleton records x ih =>
    obtain ⟨h1, h2, h3, h4⟩ := ih
    rw [foldl_append, foldl_cons, foldl_nil]
    refine ⟨expiryInv_setRetained h1, fun t i hi => ?_, by rw [flags_setRetained, h3], fun t => ?_⟩
    · rw [get_setRetained] at hi
      split at hi
      · rename_i ht
        cases hi
        exact ⟨rfl, ht⟩
      · exact h2 t i hi
    · rw [retainEpoch_setRetained, h4]

/-- Every run keeps the invariant. -/
theorem runInv_run (limit : Nat) (records : List StoredRetain) (start : Int)
    (events : List RetainEvent) :
    RunInv (loadedValue records) (run limit records start events) := by
  induction events using List.reverseRecOn with
  | append_singleton events e ih =>
    unfold run at ih ⊢
    rw [foldl_append]
    exact runInv_step ih limit e
  | nil =>
    obtain ⟨h1, h2, h3, h4⟩ := loaded_spec records
    have hshow : ∀ t : Str, Shows [0] start (loaded records).retained[t]?
        (loadedValue records t) := by
      intro t
      refine ⟨fun i hi => ⟨by simp [(h2 t i hi).1], by simp [loadedValue, hi]⟩, fun m hm _ hnone =>
        ?_⟩
      simp [loadedValue, hnone] at hm
    refine ⟨h1, by simp [run], by simp [run], fun g hg => ?_,
      by simp [run], fun t g hg => ?_, by simp [run], fun t msg hmsg => ?_,
      fun _ _ => rfl, fun t => ⟨fun _ => ?_, fun m hm => ?_, fun m hm => ?_⟩⟩
    · rw [show (run limit records start []).store.flags = [0] from h3] at hg
      rw [mem_singleton.1 hg]
      exact Nat.zero_le _
    · rw [show (run limit records start []).store.retainEpoch[t]? = none from h4 t] at hg
      cases hg
    · obtain ⟨i, hi, rfl⟩ := map_eq_some_iff.1
        (show ((loaded records).retained[t]?).map (·.record.toMessage) = some msg from
          hmsg)
      exact (h2 t i hi).2
    · show Shows (loaded records).flags start _ _
      rw [h3]
      exact hshow t
    · cases hm
    · cases hm

theorem mem_retainedMessages {s : RetainState} {now m} : m ∈ s.retainedMessages now ↔
      ∃ i, s.retained[m.topic]? = some i ∧ i.generation ∈ s.flags ∧
        expiredAt i.record.expiresMs now = false ∧
        { i.record.toMessage with topic := m.topic } = m := by
  simp only [retainedMessages, mem_filterMap, Prod.exists,
    ExtTreeMap.mem_toList_iff_getElem?_eq_some]
  constructor
  · rintro ⟨t, i, hi, hm⟩
    split at hm <;> cases hm
    rename_i hc
    exact ⟨i, hi, hc.1, hc.2, rfl⟩
  · rintro ⟨i, hi, hf, he, hm⟩
    exact ⟨m.topic, i, hi, by rw [if_pos ⟨hf, he⟩, hm]⟩

def expectedValue (now : Int) (topic : Str) : Option RetainedMessage :=
  (committedValue (loadedValue records) outcomes topic).filter
    (fun m => !expiredAt m.expiresMs now)

/-- When every callback of a run has been called, `retained_messages` returns for a topic
the value that the successful mutations leave, exactly when at most one mutation on the
topic has failed or that value is none. -/
theorem retainedMessages_final_iff (limit : Nat) (records : List StoredRetain) (start now : Int)
    (events : List RetainEvent) (topic : Str) (hdone : (run limit records start events).queue = [])
    (hnow : (run limit records start events).now ≤ now) : (∀ m, m.topic = topic →
      (m ∈ (run limit records start events).store.retainedMessages now ↔
        expectedValue records (run limit records start events).outcomes now topic =
          some m)) ↔
      failedOn (run limit records start events).outcomes topic ≤ 1 ∨
        expectedValue records (run limit records start events).outcomes now topic =
          none := by
  have hinv := runInv_run limit records start events
  set r := run limit records start events
  have hquiet := (hinv.topics topic).quiet (by simp [pendingOn, hdone])
  split at hquiet
  · rename_i hle
    refine iff_of_true (fun m hm => ?_) (.inl hle)
    subst hm
    rw [mem_retainedMessages, expectedValue, filter_eq_some_iff]
    constructor
    · rintro ⟨i, hi, -, he, hm⟩
      have hval := (hquiet.item i hi).2
      have htopic := hinv.committed_topic _ _ hval
      have hmi : i.record.toMessage = m := by rw [← hm, ← htopic]
      rw [hmi] at hval
      refine ⟨hval, ?_⟩
      rw [← hmi]
      simpa using he
    · rintro ⟨hval, he⟩
      have hlive : expiredAt m.expiresMs now = false := by simpa using he
      have hearlier : expiredAt m.expiresMs r.now = false := by
        rw [Bool.eq_false_iff] at hlive ⊢
        exact fun h => hlive (expiredAt_mono hnow h)
      obtain ⟨i, hi⟩ := ne_none_iff_exists'.1 (hquiet.present m hval hearlier)
      obtain ⟨hflag, hval'⟩ := hquiet.item i hi
      rw [hval, Option.some.injEq] at hval'
      refine ⟨i, hi, hflag, ?_, ?_⟩
      · rw [← expiresMs_toMessage, ← hval']
        exact hlive
      · rw [← hval']
  · rename_i hle
    have hnone : ∀ m ∈ r.store.retainedMessages now, m.topic ≠ topic := by
      rintro m hm rfl
      obtain ⟨i, hi, hflag, -, -⟩ := mem_retainedMessages.1 hm
      exact hquiet i hi hflag
    constructor
    · intro h
      right
      rw [eq_none_iff_forall_ne_some]
      intro m hm
      have htopic : m.topic = topic :=
        hinv.committed_topic _ _ (filter_eq_some_iff.1 hm).1
      exact hnone m ((h m htopic).2 hm) htopic
    · rintro (h | h) m hm
      · exact absurd h hle
      · rw [h]
        exact iff_of_false (fun hmem => hnone m hmem hm) (by simp)

def sampleRetained (payload : Str) : RetainedMessage :=
  { topic := [0x61], qos := 0, payload, sender := [0x70], expiresMs := 0, properties := {} }

def oneFailedPut : List RetainEvent :=
  [.put (sampleRetained [1]) true, .callback true, .put (sampleRetained [2]) true, .callback false]

theorem oneFailedPut_restores : (run 1000 [] 0 oneFailedPut).queue = [] ∧
      ∀ m, m.topic = [0x61] → (m ∈ (run 1000 [] 0 oneFailedPut).store.retainedMessages 0 ↔
          expectedValue [] (run 1000 [] 0 oneFailedPut).outcomes 0 [0x61] = some m) :=
  ⟨by decide, (retainedMessages_final_iff 1000 [] 0 0 oneFailedPut [0x61] (by decide)
    (by decide)).2 (.inl (by decide))⟩

def twoFailedPuts : List RetainEvent :=
  [.put (sampleRetained [1]) true, .callback true, .put (sampleRetained [2]) true,
    .put (sampleRetained [3]) true, .callback false, .callback false]

/-- The committed message is not returned any more. -/
theorem twoFailedPuts_lose_value : (run 1000 [] 0 twoFailedPuts).queue = [] ∧
      expectedValue [] (run 1000 [] 0 twoFailedPuts).outcomes 0 [0x61] =
        some (sampleRetained [1]) ∧
      (run 1000 [] 0 twoFailedPuts).store.retainedMessages 0 = [] := by
  decide

end Mqtts.Durable

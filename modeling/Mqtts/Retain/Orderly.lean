import Mathlib.Data.List.TakeWhile
import Mqtts.Retain.Publish

/-!
# Orderly rollbacks

A rollback puts back the value that its call found, and it decides whether to do so by looking at
the value that is there now. That is right only when the calls on a topic undo in the reverse order
of their writes. The invariant follows the list `uncommitted` of a topic.
-/

namespace Mqtts.Retain

open Std Function
open RetainStore (storable Thinned ofCopy)

/-! ## Values up to expiry -/

def visible (now : Int) (v : Option RetainedCopy) : Option RetainedCopy :=
  v.filter fun c => !reached c.expiresAt now

/-- Values count up to expiry: they are compared at all times from the present on. -/
def Same (since : Int) (v w : Option RetainedCopy) : Prop :=
  ∀ now, since ≤ now → visible now v = visible now w

variable {c : Int} {v w : Option RetainedCopy} {jobs : ExtTreeMap Nat Job} {l : List Nat} {t : Str}
  {a : Nat} {k : Job}

theorem Same.refl (v : Option RetainedCopy) : Same c v v := fun _ _ => rfl

theorem Same.symm (h : Same c v w) : Same c w v :=
  fun now hn => (h now hn).symm

theorem Same.trans {u} (h : Same c u v) (h' : Same c v w) : Same c u w :=
  fun now hn => (h now hn).trans (h' now hn)

theorem Same.later {c'} (hc : c ≤ c') (h : Same c v w) : Same c' v w :=
  fun now hn => h now (Int.le_trans hc hn)

theorem same_visible {now} (h : now ≤ c) (v : Option RetainedCopy) : Same c (visible now v) v := by
  intro now' hn
  cases v with
  | none => rfl
  | some copy =>
    by_cases hr : reached copy.expiresAt now
    · have hr' := reached_mono (Int.le_trans h hn) hr
      simp [visible, Option.filter, hr, hr']
    · simp [visible, Option.filter, hr]

namespace RetainStore

variable {s s' : RetainStore} {topic : Str} {now c : Int}

def copyAt (s : RetainStore) (topic : Str) : Option RetainedCopy :=
  (s.slot topic).map fun m => ⟨topic, m.content, m.expiresAt⟩

theorem peek_eq_visible (hne : topic ≠ []) : s.peek topic now = visible now (s.copyAt topic) := by
  rw [peek, if_neg hne, copyAt]
  cases s.slot topic with
  | none => rfl
  | some m => by_cases hr : reached m.expiresAt now <;> simp [visible, Option.filter, hr]

theorem topic_of_peek {copy} (h : s.peek topic now = some copy) : copy.topic = topic := by
  rw [peek] at h
  split_ifs at h
  split at h
  · cases h
  · split at h <;> cases h
    rfl

theorem Thinned.same (h : Thinned now s s') (hc : now ≤ c) (topic : Str) :
    Same c (s'.copyAt topic) (s.copyAt topic) := by
  rcases h topic with heq | ⟨hnone, m, hm, hr⟩
  · rw [copyAt, copyAt, heq]
    exact Same.refl _
  · intro now' hn
    have hr' := reached_mono (Int.le_trans hc hn) hr
    simp [copyAt, hnone, hm, visible, Option.filter, hr']

theorem copyAt_update {v} (hslot : s'.slot = update s.slot topic (v.map ofCopy))
    (hv : ∀ copy, v = some copy → copy.topic = topic) (t : Str) :
    s'.copyAt t = if t = topic then v else s.copyAt t := by
  rw [copyAt, hslot]
  by_cases ht : t = topic
  · subst ht
    cases v with
    | none => simp
    | some copy => simp [ofCopy, ← hv copy rfl]
  · rw [update_of_ne ht, if_neg ht, copyAt]

end RetainStore

/-! ## The condition -/

def Phase.isPeeked : Phase → Bool
  | .peeked _ => true
  | _ => false

def Phase.isRestoring : Phase → Bool
  | .restoring _ => true
  | _ => false

def Broker.anyOn (b : Broker) (topic : Str) (f : Phase → Bool) : Bool :=
  b.jobs.toList.any fun e => e.2.topic == topic && f e.2.phase

/-- The condition on a step of a call, in the state before it. A call reads its topic only
while no rollback on the topic is halfway. A commit comes to a call before it comes to a
later call on the topic. A rollback looks at its topic only when its call is the newest
uncommitted one, still finds its value and overlaps no other write, or when a later call
has been committed and the value found is not its own. -/
def orderlyCall (b : Broker) (id : Nat) (j : Job) : CallStep → Bool
  | .peekPrevious _ => !b.anyOn j.topic Phase.isRestoring
  | .commit => (b.uncommitted j.topic).contains id
  | .examine now =>
    if rollbackApplies j.installed (b.store.peek j.topic now) then
      (b.uncommitted j.topic).head? == some id && !b.anyOn j.topic Phase.isPeeked
    else !(b.uncommitted j.topic).contains id
  | _ => true

/-- When a step is of that kind, on the state before it. -/
def orderly (b : Broker) : Event → Bool
  | .call id step => (b.jobs[id]?).all fun j => orderlyCall b id j step
  | _ => true

/-! ## The invariant -/

def Phase.holdsLock : Phase → Bool
  | .locked | .peeked _ | .stored _ | .admitting => true
  | .failing held | .restoring held => held
  | .waiting | .deferred | .awaiting => false

def Phase.hasStored : Phase → Bool
  | .waiting | .locked | .peeked _ => false
  | _ => true

def shown (jobs : ExtTreeMap Nat Job) (committed : Option RetainedCopy) :
    List Nat → Option RetainedCopy
  | [] => committed
  | id :: _ => (jobs[id]?).bind (·.value)

/-- Each call on the list holds what the next older one wrote, and the oldest one the committed
value. -/
def Linked (clock : Int) (jobs : ExtTreeMap Nat Job) (committed : Option RetainedCopy) :
    List Nat → Prop
  | [] => True
  | id :: rest =>
    (∃ j, jobs[id]? = some j ∧ Same clock j.previous (shown jobs committed rest)) ∧
      Linked clock jobs committed rest

structure TopicInv (b : Broker) (t : Str) : Prop where
  members : ∀ id ∈ b.uncommitted t,
    ∃ j : Job, b.jobs[id]? = some j ∧ j.topic = t ∧ j.phase.hasStored
  nodup : (b.uncommitted t).Nodup
  linked : Linked b.clock b.jobs (b.committed t) (b.uncommitted t)
  shows : Same b.clock (b.store.copyAt t) (shown b.jobs (b.committed t) (b.uncommitted t))
  peeked : ∀ (id : Nat) (j : Job) (now : Int), b.jobs[id]? = some j → j.topic = t →
    j.phase = .peeked now → now ≤ b.clock ∧
      Same b.clock j.previous (shown b.jobs (b.committed t) (b.uncommitted t)) ∧
      ∀ (id' : Nat) (j' : Job) (l : Bool), b.jobs[id']? = some j' → j'.topic = t →
        j'.phase ≠ .restoring l
  restoring : ∀ (id : Nat) (j : Job) (l : Bool), b.jobs[id]? = some j → j.topic = t →
    j.phase = .restoring l → (b.uncommitted t).head? = some id

/-- The invariant of orderly steps. -/
structure Inv (b : Broker) : Prop where
  indexed : b.store.Indexed
  topics : ∀ (id : Nat) (j : Job), b.jobs[id]? = some j → storable j.topic
  previous : ∀ (id : Nat) (j : Job) (copy : RetainedCopy), b.jobs[id]? = some j →
    j.previous = some copy → copy.topic = j.topic
  locks : ∀ (id : Nat) (j : Job), b.jobs[id]? = some j → j.phase.holdsLock → b.lock = some id
  topic : ∀ t, t ≠ [] → TopicInv b t

/-! ## Lists of calls when the calls change -/

def Keeps (jobs jobs' : ExtTreeMap Nat Job) (l : List Nat) : Prop :=
  ∀ id ∈ l, ∀ j, jobs[id]? = some j →
    ∃ j', jobs'[id]? = some j' ∧ j'.topic = j.topic ∧ j'.previous = j.previous ∧
      j'.value = j.value ∧ (j.phase.hasStored → j'.phase.hasStored)

theorem Keeps.refl (jobs : ExtTreeMap Nat Job) (l : List Nat) : Keeps jobs jobs l :=
  fun _ _ j hj => ⟨j, hj, rfl, rfl, rfl, fun h => h⟩

theorem keeps_of_get {jobs' id} (hid : id ∉ l)
    (h : ∀ a, a ≠ id → jobs'[a]? = jobs[a]?) : Keeps jobs jobs' l :=
  fun a ha j hj =>
    ⟨j, by rw [h a fun e => hid (e ▸ ha), hj], rfl, rfl, rfl, fun h' => h'⟩

section Keeps

variable {jobs jobs' : ExtTreeMap Nat Job} {committed : Option RetainedCopy} {clock : Int}

theorem shown_keeps (committed : Option RetainedCopy) {l} (hk : Keeps jobs jobs' l)
    (hdom : ∀ id ∈ l, ∃ j, jobs[id]? = some j) :
    shown jobs' committed l = shown jobs committed l := by
  cases l with
  | nil => rfl
  | cons id rest =>
    obtain ⟨j, hj⟩ := hdom id List.mem_cons_self
    obtain ⟨j', hj', -, -, hvalue, -⟩ := hk id List.mem_cons_self j hj
    simp [shown, hj, hj', hvalue]

theorem Linked.exists_job {l} (h : Linked clock jobs committed l) :
    ∀ id ∈ l, ∃ j, jobs[id]? = some j := by
  induction l with
  | nil => simp
  | cons a rest ih =>
    intro id hid
    rcases List.mem_cons.1 hid with rfl | hid
    · obtain ⟨⟨j, hj, -⟩, -⟩ := h
      exact ⟨j, hj⟩
    · exact ih h.2 id hid

theorem Linked.keeps {clock'} (hclock : clock ≤ clock') :
    ∀ {l}, Linked clock jobs committed l → Keeps jobs jobs' l → Linked clock' jobs' committed l
  | [], _, _ => trivial
  | id :: rest, h, hk => by
    obtain ⟨⟨j, hj, hsame⟩, hrest⟩ := h
    have hk' : Keeps jobs jobs' rest := fun a ha => hk a (List.mem_cons_of_mem _ ha)
    obtain ⟨j', hj', -, hprevious, -, -⟩ := hk id List.mem_cons_self j hj
    refine ⟨⟨j', hj', ?_⟩, Linked.keeps hclock hrest hk'⟩
    rw [hprevious, shown_keeps committed hk' hrest.exists_job]
    exact hsame.later hclock

theorem Linked.takeWhile {id j} (hj : jobs[id]? = some j) :
    ∀ {l}, id ∈ l → Linked clock jobs committed l →
      Linked clock jobs j.value (l.takeWhile (· ≠ id)) ∧
        shown jobs j.value (l.takeWhile (· ≠ id)) = shown jobs committed l
  | [], hid, _ => absurd hid List.not_mem_nil
  | a :: rest, hid, h => by
    by_cases ha : a = id
    · subst ha
      simp [Linked, shown, hj]
    · have hrest : id ∈ rest := (List.mem_cons.1 hid).resolve_left fun e => ha e.symm
      obtain ⟨⟨ja, hja, hsame⟩, hlinked⟩ := h
      obtain ⟨ih, hshown⟩ := Linked.takeWhile hj hrest hlinked
      rw [List.takeWhile_cons_of_pos (by simpa using ha)]
      exact ⟨⟨⟨ja, hja, hshown ▸ hsame⟩, ih⟩, rfl⟩

end Keeps

/-! ## Steps that leave a topic's list alone -/

/-- Serves every step that leaves the list of a topic alone. -/
theorem TopicInv.frame {b b'} (h : TopicInv b t) (huncommitted : b'.uncommitted t = b.uncommitted t)
    (hcommitted : b'.committed t = b.committed t) (hclock : b.clock ≤ b'.clock)
    (hstore : Same b'.clock (b'.store.copyAt t) (b.store.copyAt t))
    (hkeeps : Keeps b.jobs b'.jobs (b.uncommitted t))
    (hpeeked : ∀ (id : Nat) (j' : Job) (now : Int), b'.jobs[id]? = some j' → j'.topic = t →
    j'.phase = .peeked now → b.jobs[id]? = some j' ∨
      (now ≤ b.clock ∧ Same b.clock j'.previous (b.store.copyAt t) ∧ ∀ (a : Nat) (k : Job)
        (l : Bool), b'.jobs[a]? = some k → k.topic = t → k.phase ≠ .restoring l))
    (hrestoring : ∀ (id : Nat) (j' : Job) (l : Bool), b'.jobs[id]? = some j' → j'.topic = t →
    j'.phase = .restoring l → b.jobs[id]? = some j' ∨
      ((b.uncommitted t).head? = some id ∧ ∀ (a : Nat) (k : Job) (now : Int), b.jobs[a]? = some k →
        k.topic = t → k.phase ≠ .peeked now)) :
    TopicInv b' t := by
  have hshown := shown_keeps (b.committed t) hkeeps h.linked.exists_job
  refine ⟨?_, ?_, ?_, ?_, ?_, ?_⟩
  · intro id hid
    rw [huncommitted] at hid
    obtain ⟨j, hj, ht, hp⟩ := h.members id hid
    obtain ⟨j', hj', htopic, -, -, hphase⟩ := hkeeps id hid j hj
    exact ⟨j', hj', htopic.trans ht, hphase hp⟩
  · rw [huncommitted]
    exact h.nodup
  · rw [huncommitted, hcommitted]
    exact h.linked.keeps hclock hkeeps
  · rw [huncommitted, hcommitted, hshown]
    exact hstore.trans (h.shows.later hclock)
  · intro id j' now hj' ht hp
    rw [huncommitted, hcommitted, hshown]
    rcases hpeeked id j' now hj' ht hp with hold | ⟨hle, hsame, hno⟩
    · obtain ⟨hle, hsame, hno⟩ := h.peeked id j' now hold ht hp
      refine ⟨Int.le_trans hle hclock, hsame.later hclock, ?_⟩
      intro a k l hk hkt hkp
      rcases hrestoring a k l hk hkt hkp with hold' | ⟨-, hnone⟩
      · exact hno a k l hold' hkt hkp
      · exact hnone id j' now hold ht hp
    · exact ⟨Int.le_trans hle hclock, (hsame.trans h.shows).later hclock, hno⟩
  · intro id j' l hj' ht hp
    rw [huncommitted]
    rcases hrestoring id j' l hj' ht hp with hold | ⟨hhead, -⟩
    · exact h.restoring id j' l hold ht hp
    · exact hhead

variable {b : Broker} {id : Nat} {j j' : Job} {lock : Option Nat}

theorem not_mem_uncommitted (h : Inv b) (hj : b.jobs[id]? = some j) (hp : j.phase.hasStored = false)
    (ht : t ≠ []) : id ∉ b.uncommitted t := by
  intro hid
  obtain ⟨k, hk, -, hstored⟩ := (h.topic t ht).members id hid
  cases hj.symm.trans hk
  simp [hp] at hstored

theorem Inv.not_mem_of_ne (h : Inv b) (hj : b.jobs[id]? = some j) (ht : t ≠ [])
    (hne : t ≠ j.topic) : id ∉ b.uncommitted t := by
  intro hid
  obtain ⟨k, hk, hkt, -⟩ := (h.topic t ht).members id hid
  cases hj.symm.trans hk
  exact hne hkt.symm

theorem Inv.not_holdsLock (h : Inv b) (hj : b.jobs[id]? = some j) (hp : j.phase.holdsLock)
    (ha : a ≠ id) (hk : b.jobs[a]? = some k) : k.phase.holdsLock = false := by
  by_contra hc
  have h1 := h.locks id j hj hp
  have h2 := h.locks a k hk (by simpa using hc)
  exact ha (Option.some.inj (h2.symm.trans h1))

theorem get_insert_cases (hk : (jobs.insert id j')[a]? = some k) :
    (a = id ∧ k = j') ∨ (a ≠ id ∧ jobs[a]? = some k) := by
  rw [Maps.get_insert] at hk
  split at hk
  · rename_i ha
    exact .inl ⟨ha.symm, (Option.some.inj hk).symm⟩
  · rename_i ha
    exact .inr ⟨fun e => ha e.symm, hk⟩

theorem get_erase_cases (hk : (jobs.erase id)[a]? = some k) : a ≠ id ∧ jobs[a]? = some k := by
  rw [Maps.get_erase] at hk
  by_cases ha : id = a
  · simp [ha] at hk
  · exact ⟨fun e => ha e.symm, by simpa [ha] using hk⟩

theorem keeps_insert (hid : id ∉ l) : Keeps jobs (jobs.insert id j') l :=
  keeps_of_get hid fun a ha => by rw [Maps.get_insert, if_neg fun e => ha e.symm]

theorem keeps_erase (hid : id ∉ l) : Keeps jobs (jobs.erase id) l :=
  keeps_of_get hid fun a ha => by rw [Maps.get_erase, if_neg fun e => ha e.symm]

theorem Inv.set {b' : Broker} (h : Inv b) (hjobs : b'.jobs = b.jobs.insert id j')
    (hindexed : b'.store.Indexed) (htopic : storable j'.topic)
    (hprevious : ∀ copy, j'.previous = some copy → copy.topic = j'.topic)
    (hlock : j'.phase.holdsLock → b'.lock = some id)
    (hothers : ∀ (a : Nat) k, a ≠ id → b.jobs[a]? = some k → k.phase.holdsLock → b'.lock = some a)
    (hinv : ∀ t, t ≠ [] → TopicInv b' t) : Inv b' := by
  refine ⟨hindexed, ?_, ?_, ?_, hinv⟩ <;> rw [hjobs]
  · intro a k hk
    rcases get_insert_cases hk with ⟨-, rfl⟩ | ⟨-, hk⟩
    · exact htopic
    · exact h.topics a k hk
  · intro a k copy hk
    rcases get_insert_cases hk with ⟨-, rfl⟩ | ⟨-, hk⟩
    · exact hprevious copy
    · exact h.previous a k copy hk
  · intro a k hk
    rcases get_insert_cases hk with ⟨rfl, rfl⟩ | ⟨ha, hk⟩
    · exact hlock
    · exact hothers a k ha hk

/-- A call goes on to another phase. -/
theorem Inv.rephase (h : Inv b) (hj : b.jobs[id]? = some j) (htopic : j'.topic = j.topic)
    (hprevious : j'.previous = j.previous) (hvalue : j'.value = j.value)
    (hstored : j'.phase.hasStored = j.phase.hasStored) (hpeeked : ∀ now, j'.phase ≠ .peeked now)
    (hrestoring : ∀ l, j'.phase = .restoring l → (b.uncommitted j.topic).head? = some id ∧
      ∀ (a : Nat) (k : Job) (now : Int), b.jobs[a]? = some k → k.topic = j.topic →
        k.phase ≠ .peeked now)
    (hlock : j'.phase.holdsLock → lock = some id)
    (hothers : ∀ (a : Nat) (k : Job), a ≠ id → b.jobs[a]? = some k → k.phase.holdsLock →
      lock = some a) :
    Inv { b.setJob id j' with lock := lock } := by
  refine h.set rfl h.indexed (htopic ▸ h.topics id j hj) ?_ hlock hothers ?_
  · intro copy hcopy
    rw [htopic]
    exact h.previous id j copy hj (hprevious ▸ hcopy)
  · intro t ht
    refine (h.topic t ht).frame rfl rfl (Int.le_refl _) (Same.refl _) ?_ ?_ ?_
    · intro a ha k hk
      by_cases he : id = a
      · subst he
        cases hj.symm.trans hk
        exact ⟨j', by simp [Broker.setJob], htopic, hprevious, hvalue, fun hs => hstored ▸ hs⟩
      · exact ⟨k, by simp [Broker.setJob, he, hk], rfl, rfl, rfl, fun hs => hs⟩
    · intro a k now hk hkt hkp
      rcases get_insert_cases hk with ⟨-, rfl⟩ | ⟨-, hk⟩
      · exact absurd hkp (hpeeked now)
      · exact .inl hk
    · intro a k l hk hkt hkp
      rcases get_insert_cases hk with ⟨rfl, rfl⟩ | ⟨-, hk⟩
      · have ht' : j.topic = t := htopic ▸ hkt
        exact .inr (ht' ▸ hrestoring l hkp)
      · exact .inl hk

/-- A call leaves. -/
theorem Inv.leave {s now} (h : Inv b) (hnot : ∀ t, t ≠ [] → id ∉ b.uncommitted t)
    (hindexed : s.Indexed) (hthinned : Thinned now b.store s) (hnow : now ≤ b.clock)
    (hothers : ∀ (a : Nat) (k : Job), a ≠ id → b.jobs[a]? = some k → k.phase.holdsLock →
      lock = some a) :
    Inv { b with jobs := b.jobs.erase id, lock := lock, store := s } := by
  refine ⟨hindexed, ?_, ?_, ?_, ?_⟩
  · exact fun a k hk => h.topics a k (get_erase_cases hk).2
  · exact fun a k copy hk => h.previous a k copy (get_erase_cases hk).2
  · exact fun a k hk hp => hothers a k (get_erase_cases hk).1 (get_erase_cases hk).2 hp
  · intro t ht
    refine (h.topic t ht).frame rfl rfl (Int.le_refl _) (hthinned.same hnow t) ?_ ?_ ?_
    · exact keeps_erase (hnot t ht)
    · exact fun a k _ hk _ _ => .inl (get_erase_cases hk).2
    · exact fun a k _ hk _ _ => .inl (get_erase_cases hk).2

end Mqtts.Retain

import Mqtts.Retain.Orderly

/-!
# The retained store follows the commits

When no publication is in flight, the retained store should show for every topic the value
of the last publication on it whose commit succeeded.
-/

namespace Mqtts.Retain

open List Std Function Runs Phase RetainStore
open RetainStore (deletes requested storable Thinned ofCopy)

variable {b : Broker} {id : Nat} {j : Job}

/-! ## The steps of a call -/

variable {now : Int} {limits : RetainConfig} {l : Bool}

theorem topic_of_requested {packet sender address copy}
    (h : requested packet sender address now = some copy) : copy.topic = packet.topicName := by
  rw [requested] at h
  split at h <;> cases h
  rfl

theorem anyOn_eq_false {t} {f : Phase → Bool} (h : b.anyOn t f = false) {a : Nat} {k : Job}
    (hk : b.jobs[a]? = some k) (ht : k.topic = t) : f k.phase = false := by
  rw [Broker.anyOn, any_eq_false] at h
  have hak := h (a, k) (ExtTreeMap.mem_toList_iff_getElem?_eq_some.2 hk)
  simpa [ht] using hak

section

variable (h : Inv b) (hj : b.jobs[id]? = some j)
include h hj

theorem Inv.peekPrevious (hp : j.phase = .locked) (hnow : now ≤ b.clock)
    (hrolling : ∀ (a : Nat) k l, b.jobs[a]? = some k → k.topic = j.topic → k.phase ≠ .restoring l) :
    Inv (b.peekPrevious id j now) := by
  have htopic := h.topics id j hj
  refine h.set rfl h.indexed htopic (fun _ => topic_of_peek)
    (fun _ => h.locks id j hj (by simp [hp, holdsLock])) (fun a k _ => h.locks a k) fun t ht => ?_
  have hnot := not_mem_uncommitted h hj (by simp [hp, hasStored]) ht
  refine (h.topic t ht).frame rfl rfl (Int.le_refl _) (Same.refl _) (keeps_insert hnot) ?_ ?_
  · intro a k now' hk hkt hkp
    rcases get_insert_cases hk with ⟨rfl, rfl⟩ | ⟨-, hk⟩
    · obtain rfl : now = now' := by simpa using hkp
      obtain rfl : j.topic = t := hkt
      refine .inr ⟨hnow, ?_, ?_⟩
      · rw [peek_eq_visible ht]
        exact same_visible hnow _
      · intro c m l hm hmt hml
        rcases get_insert_cases hm with ⟨-, rfl⟩ | ⟨-, hm⟩
        · simp at hml
        · exact hrolling c m l hm hmt hml
    · exact .inl hk
  · intro a k l hk hkt hkp
    rcases get_insert_cases hk with ⟨-, rfl⟩ | ⟨-, hk⟩
    · simp at hkp
    · exact .inl hk

theorem Inv.stored {s s₁ value p} (hp : j.phase = .peeked now) (hindexed : s.Indexed)
    (hthinned : Thinned now b.store s₁) (hslot : s.slot = update s₁.slot j.topic (value.map ofCopy))
    (hvalue : ∀ copy, value = some copy → copy.topic = j.topic)
    (hphase : p = .admitting ∨ p = .stored now) :
    Inv { b.setJob id { j with phase := p, value := value } with
      store := s
      uncommitted := update b.uncommitted j.topic (id :: b.uncommitted j.topic) } := by
  have htopic := h.topics id j hj
  obtain ⟨hnow, hprevious, hrolling⟩ := (h.topic _ htopic.1).peeked id j now hj rfl hp
  have hnot : ∀ {t : Str}, t ≠ [] → id ∉ b.uncommitted t :=
    fun ht => not_mem_uncommitted h hj (by simp [hp, hasStored]) ht
  have hstored : p.hasStored := by rcases hphase with rfl | rfl <;> rfl
  have hpeeked : ∀ now', p ≠ .peeked now' := by rcases hphase with rfl | rfl <;> simp
  have hrestoring : ∀ l, p ≠ .restoring l := by rcases hphase with rfl | rfl <;> simp
  have hcopy := copyAt_update hslot hvalue
  refine h.set rfl hindexed htopic (fun copy => h.previous id j copy hj)
    (fun _ => h.locks id j hj (by simp [hp, holdsLock])) (fun a k _ => h.locks a k) fun t ht => ?_
  by_cases heq : t = j.topic
  · subst heq
    have hinv := h.topic _ ht
    have hkeeps : Keeps b.jobs (b.jobs.insert id { j with phase := p, value := value })
        (b.uncommitted j.topic) := keeps_insert (hnot ht)
    have hself : (b.jobs.insert id { j with phase := p, value := value })[id]? =
        some { j with phase := p, value := value } := by simp
    have hshown : Same b.clock value (shown
        (b.jobs.insert id { j with phase := p, value := value }) (b.committed j.topic)
        (id :: b.uncommitted j.topic)) := by
      simpa [shown] using Same.refl value
    refine ⟨?_, ?_, ?_, ?_, ?_, ?_⟩
    · intro a ha
      rw [show (_ : Broker).uncommitted j.topic = id :: b.uncommitted j.topic from
        update_self ..] at ha
      rcases mem_cons.1 ha with rfl | ha
      · exact ⟨_, hself, rfl, hstored⟩
      · obtain ⟨k, hk, hkt, hks⟩ := hinv.members a ha
        obtain ⟨k', hk', hkt', -, -, hks'⟩ := hkeeps a ha k hk
        exact ⟨k', hk', hkt'.trans hkt, hks' hks⟩
    · simpa using ⟨hnot ht, hinv.nodup⟩
    · simp only [update_self]
      refine ⟨⟨_, hself, ?_⟩, hinv.linked.keeps (Int.le_refl _) hkeeps⟩
      rw [show (b.setJob id { j with phase := p, value := value }).jobs =
        b.jobs.insert id { j with phase := p, value := value } from rfl,
        shown_keeps _ hkeeps hinv.linked.exists_job]
      exact hprevious
    · simp only [update_self]
      rw [hcopy, if_pos rfl]
      exact hshown
    · intro a k now' hk hkt hkp
      rcases get_insert_cases hk with ⟨-, rfl⟩ | ⟨hne, hk⟩
      · exact absurd hkp (hpeeked now')
      · -- two calls that have read the topic and not written would both hold the lock
        have hfree := h.not_holdsLock hj (by simp [hp, holdsLock]) hne hk
        simp [hkp, holdsLock] at hfree
    · intro a k l hk hkt hkp
      rcases get_insert_cases hk with ⟨-, rfl⟩ | ⟨-, hk⟩
      · exact absurd hkp (hrestoring l)
      · exact absurd hkp (hrolling a k l hk hkt)
  · refine (h.topic t ht).frame (update_of_ne heq _ _) rfl (Int.le_refl _) ?_
      (keeps_insert (hnot ht)) ?_ ?_
    · rw [hcopy, if_neg heq]
      exact hthinned.same hnow t
    · intro a k now' hk hkt hkp
      rcases get_insert_cases hk with ⟨-, rfl⟩ | ⟨-, hk⟩
      · exact absurd hkp (hpeeked now')
      · exact .inl hk
    · intro a k l hk hkt hkp
      rcases get_insert_cases hk with ⟨-, rfl⟩ | ⟨-, hk⟩
      · exact absurd hkp (hrestoring l)
      · exact .inl hk

theorem Inv.storeValue {address} (hp : j.phase = .peeked now) :
    Inv (b.storeValue limits id j address now) := by
  have htopic := h.topics id j hj
  obtain ⟨hindexed, hwritten⟩ :=
    store_spec j.packet j.sender limits address now h.indexed htopic
  rw [Broker.storeValue]
  rcases hwritten with ⟨⟨reason, hkind⟩, -, hthinned⟩ | ⟨hkind, s₁, hthinned, hslot⟩
  · simp only [hkind]
    refine h.leave (fun t ht => not_mem_uncommitted h hj (by simp [hp, hasStored]) ht)
      hindexed hthinned ((h.topic _ htopic.1).peeked id j now hj rfl hp).1 ?_
    intro a k ha hk hl
    have hfree := h.not_holdsLock hj (by simp [hp, holdsLock]) ha hk
    simp [hl] at hfree
  · have hphase : (if deletes j.packet then admitting else .stored now) = .admitting ∨
        (if deletes j.packet then admitting else .stored now) = .stored now := by
      cases deletes j.packet <;> simp
    have hinv := h.stored hj hp hindexed hthinned hslot
      (fun copy hcopy => topic_of_requested hcopy) hphase
    split
    · rename_i reason heq
      exact absurd heq (hkind reason)
    · exact hinv

theorem Inv.commit (hmem : id ∈ b.uncommitted j.topic) : Inv (b.commit id j) := by
  have htopic := h.topics id j hj
  refine ⟨h.indexed, ?_, ?_, ?_, ?_⟩
  · exact fun a k hk => h.topics a k (get_erase_cases hk).2
  · exact fun a k copy hk => h.previous a k copy (get_erase_cases hk).2
  · exact fun a k hk => h.locks a k (get_erase_cases hk).2
  · intro t ht
    by_cases heq : t = j.topic
    · subst heq
      have hinv := h.topic _ ht
      have hsub : ∀ a ∈ (b.uncommitted j.topic).takeWhile (· ≠ id),
          a ∈ b.uncommitted j.topic ∧ a ≠ id := by
        intro a ha
        exact ⟨(takeWhile_sublist _).subset ha, by simpa using mem_takeWhile_imp ha⟩
      have hkeeps : Keeps b.jobs (b.jobs.erase id)
          ((b.uncommitted j.topic).takeWhile (· ≠ id)) :=
        keeps_erase fun hid => (hsub id hid).2 rfl
      obtain ⟨hlinked, hshown⟩ := hinv.linked.takeWhile hj hmem
      have hshown' := (shown_keeps _ hkeeps hlinked.exists_job).trans hshown
      refine ⟨?_, ?_, ?_, ?_, ?_, ?_⟩ <;> simp only [Broker.commit, Broker.finish, update_self]
      · intro a ha
        obtain ⟨k, hk, hkt, hks⟩ := hinv.members a (hsub a ha).1
        obtain ⟨k', hk', hkt', -, -, hks'⟩ := hkeeps a ha k hk
        exact ⟨k', hk', hkt'.trans hkt, hks' hks⟩
      · exact hinv.nodup.sublist (takeWhile_sublist _)
      · exact hlinked.keeps (Int.le_refl _) hkeeps
      · rw [hshown']
        exact hinv.shows
      · intro a k now hk hkt hkp
        rw [hshown']
        obtain ⟨hle, hsame, hno⟩ := hinv.peeked a k now (get_erase_cases hk).2 hkt hkp
        exact ⟨hle, hsame, fun c m l hm => hno c m l (get_erase_cases hm).2⟩
      · intro a k l hk hkt hkp
        obtain ⟨hne, hk⟩ := get_erase_cases hk
        have hhead := hinv.restoring a k l hk hkt hkp
        obtain ⟨rest, hrest⟩ : ∃ rest, b.uncommitted j.topic = a :: rest :=
          List.head?_eq_some_iff.1 hhead
        simp [hrest, hne]
    · refine (h.topic t ht).frame (update_of_ne heq _ _) (update_of_ne heq _ _) (Int.le_refl _)
        (Same.refl _) (keeps_erase (h.not_mem_of_ne hj ht heq)) ?_ ?_
      · exact fun a k _ hk _ _ => .inl (get_erase_cases hk).2
      · exact fun a k _ hk _ _ => .inl (get_erase_cases hk).2

theorem Inv.rolledBack : (b.rolledBack j).Indexed ∧
      ∀ t, (b.rolledBack j).copyAt t = if t = j.topic then j.previous else b.store.copyAt t := by
  have htopic := h.topics id j hj
  rw [Broker.rolledBack]
  cases hprevious : j.previous with
  | none =>
    refine ⟨h.indexed.remove _, copyAt_update ?_ (by simp)⟩
    exact slot_remove htopic.1
  | some copy =>
    have hcopy := h.previous id j copy hj hprevious
    refine ⟨h.indexed.install _, copyAt_update ?_ ?_⟩
    · rw [← hcopy]
      exact slot_install (hcopy ▸ htopic.1)
    · rintro _ ⟨⟩
      exact hcopy

theorem Inv.restore (hp : j.phase = .restoring l) :
    Inv { (b.finish id l).forget id j.topic with store := b.rolledBack j } := by
  have htopic := h.topics id j hj
  obtain ⟨hindexed, hcopy⟩ := h.rolledBack hj
  refine ⟨hindexed, ?_, ?_, ?_, ?_⟩
  · exact fun a k hk => h.topics a k (get_erase_cases hk).2
  · exact fun a k copy hk => h.previous a k copy (get_erase_cases hk).2
  · intro a k hk hl
    obtain ⟨hne, hold⟩ := get_erase_cases hk
    cases l with
    | false => exact h.locks a k hold hl
    | true =>
      have hfree := h.not_holdsLock hj (by simp [hp, holdsLock]) hne hold
      simp [hl] at hfree
  · intro t ht
    by_cases heq : t = j.topic
    · subst heq
      have hinv := h.topic _ ht
      obtain ⟨rest, hrest⟩ : ∃ rest, b.uncommitted j.topic = id :: rest :=
        List.head?_eq_some_iff.1 (hinv.restoring id j l hj rfl hp)
      have hnot : id ∉ rest := (nodup_cons.1 (hrest ▸ hinv.nodup)).1
      have hkeeps : Keeps b.jobs (b.jobs.erase id) rest := keeps_erase hnot
      obtain ⟨⟨j', hj', hprevious⟩, hlinked⟩ : Linked b.clock b.jobs (b.committed j.topic)
          (id :: rest) := hrest ▸ hinv.linked
      cases hj.symm.trans hj'
      refine ⟨?_, ?_, ?_, ?_, ?_, ?_⟩ <;>
        simp only [Broker.forget, Broker.finish, update_self, hrest, erase_cons_head]
      · intro a ha
        obtain ⟨k, hk, hkt, hks⟩ := hinv.members a (hrest ▸ mem_cons_of_mem _ ha)
        obtain ⟨k', hk', hkt', -, -, hks'⟩ := hkeeps a ha k hk
        exact ⟨k', hk', hkt'.trans hkt, hks' hks⟩
      · exact (nodup_cons.1 (hrest ▸ hinv.nodup)).2
      · exact hlinked.keeps (Int.le_refl _) hkeeps
      · rw [hcopy, if_pos rfl, shown_keeps _ hkeeps hlinked.exists_job]
        exact hprevious
      · -- no call has read the topic while the rollback was halfway
        intro a k now hk hkt hkp
        exact absurd hp ((hinv.peeked a k now (get_erase_cases hk).2 hkt hkp).2.2 id j l hj rfl)
      · intro a k l' hk hkt hkp
        obtain ⟨hne, hk⟩ := get_erase_cases hk
        have hhead := hinv.restoring a k l' hk hkt hkp
        rw [hrest] at hhead
        exact absurd (Option.some.inj hhead).symm hne
    · refine (h.topic t ht).frame (update_of_ne heq _ _) rfl (Int.le_refl _) ?_
        (keeps_erase (h.not_mem_of_ne hj ht heq)) ?_ ?_
      · rw [hcopy, if_neg heq]
        exact Same.refl _
      · exact fun a k _ hk _ _ => .inl (get_erase_cases hk).2
      · exact fun a k _ hk _ _ => .inl (get_erase_cases hk).2

theorem Inv.superseded (hp : j.phase = .failing l)
    (hnot : id ∉ b.uncommitted j.topic) : Inv ((b.finish id l).forget id j.topic) := by
  have hforget : (b.finish id l).forget id j.topic = { b with
      jobs := b.jobs.erase id, lock := if l then none else b.lock, store := b.store } := by
    simp only [Broker.forget, Broker.finish, erase_of_not_mem hnot, update_eq_self]
  rw [hforget]
  refine h.leave ?_ h.indexed (Thinned.refl b.store) (Int.le_refl b.clock) ?_
  · intro t ht
    by_cases heq : t = j.topic
    · exact heq ▸ hnot
    · exact h.not_mem_of_ne hj ht heq
  · intro a k ha hk hl
    cases l with
    | false => exact h.locks a k hk hl
    | true =>
      have hfree := h.not_holdsLock hj (by simp [hp, holdsLock]) ha hk
      simp [hl] at hfree

theorem Inv.goOn (p : Phase) (installed : Option Nat)
    (hstored : p.hasStored = j.phase.hasStored) (hpeeked : ∀ now, p ≠ .peeked now)
    (hrestoring : ∀ l, p = .restoring l → (b.uncommitted j.topic).head? = some id ∧
      ∀ (a : Nat) k now, b.jobs[a]? = some k → k.topic = j.topic → k.phase ≠ .peeked now)
    (hlock : p.holdsLock → j.phase.holdsLock) :
    Inv (b.setJob id { j with phase := p, installed := installed }) :=
  h.rephase hj rfl rfl rfl hstored hpeeked hrestoring (fun hl => h.locks id j hj (hlock hl))
    (fun a k _ hk hl => h.locks a k hk hl)

theorem Inv.release (p : Phase) (hl : j.phase.holdsLock) (hstored : p.hasStored = j.phase.hasStored)
    (hp : p = .waiting ∨ p = .deferred ∨ p = .awaiting) : Inv (b.release id j p) := by
  refine h.rephase hj rfl rfl rfl hstored ?_ ?_ ?_ ?_
  · rcases hp with rfl | rfl | rfl <;> simp
  · rcases hp with rfl | rfl | rfl <;> simp
  · rcases hp with rfl | rfl | rfl <;> simp [holdsLock]
  · intro a k ha hk hk'
    simp [h.not_holdsLock hj hl ha hk] at hk'

theorem Inv.acquire (p : Phase) (hfree : b.lock = none)
    (hstored : p.hasStored = j.phase.hasStored) (hp : p = .locked ∨ p = .admitting) :
    Inv (b.acquire id j p) := by
  refine h.rephase hj rfl rfl rfl hstored ?_ ?_ (fun _ => rfl) ?_
  · rcases hp with rfl | rfl <;> simp
  · rcases hp with rfl | rfl <;> simp
  · intro a k _ hk hl
    have hheld := h.locks a k hk hl
    simp [hfree] at hheld

theorem Inv.examine (hp : j.phase = .failing l) (hok : orderlyCall b id j (.examine now)) :
    Inv (if rollbackApplies j.installed (b.store.peek j.topic now) then
      b.setJob id { j with phase := .restoring l } else (b.finish id l).forget id j.topic) := by
  rw [orderlyCall] at hok
  by_cases happlies : rollbackApplies j.installed (b.store.peek j.topic now)
  · rw [if_pos happlies, Bool.and_eq_true, beq_iff_eq, Bool.not_eq_true'] at hok
    obtain ⟨hhead, hnone⟩ := hok
    rw [if_pos happlies]
    refine h.goOn hj (.restoring l) j.installed (by simp [hp, hasStored]) (by simp) ?_
      (by simp [hp, holdsLock])
    refine fun _ _ => ⟨hhead, fun a k now' hk ht hkp => ?_⟩
    simpa [hkp, isPeeked] using anyOn_eq_false hnone hk ht
  · rw [if_neg happlies] at hok ⊢
    exact h.superseded hj hp (by simpa using hok)

theorem Inv.callStep {step} {b' : Broker} (hok : orderlyCall b id j step)
    (hstep : b.callStep limits id j step = some b') : Inv b' := by
  rw [Broker.callStep.eq_def] at hstep
  split at hstep
  · rename_i hp
    obtain ⟨hfree, rfl⟩ := by simpa using hstep
    exact h.acquire hj _ hfree (by simp [hp, hasStored]) (.inl rfl)
  · rename_i hp
    cases hstep
    exact h.release hj _ (by simp [hp, holdsLock]) (by simp [hp, hasStored])
      (.inl rfl)
  · rename_i hp
    cases hstep
    refine h.leave (fun t ht => not_mem_uncommitted h hj (by simp [hp, hasStored]) ht)
      h.indexed (Thinned.refl b.store) (Int.le_refl b.clock) fun a k ha hk hl => ?_
    simp [h.not_holdsLock hj (by simp [hp, holdsLock]) ha hk] at hl
  · rename_i hp
    obtain ⟨hnow, rfl⟩ := by simpa using hstep
    refine h.peekPrevious hj hp hnow fun a k l hk ht hkp => ?_
    have hnone : b.anyOn j.topic isRestoring = false := by simpa [orderlyCall] using hok
    simpa [hkp, isRestoring] using anyOn_eq_false hnone hk ht
  · rename_i hp
    cases hstep
    exact h.storeValue hj hp
  · rename_i hp
    cases hstep
    exact h.goOn hj _ _ (by simp [hp, hasStored]) (by simp) (by simp)
      (by simp [hp, holdsLock])
  · rename_i hp
    cases hstep
    exact h.release hj _ (by simp [hp, holdsLock]) (by simp [hp, hasStored])
      (.inr (.inl rfl))
  · rename_i hp
    cases hstep
    exact h.release hj _ (by simp [hp, holdsLock]) (by simp [hp, hasStored])
      (.inr (.inr rfl))
  · rename_i hp
    cases hstep
    exact h.goOn hj _ _ (by simp [hp, hasStored]) (by simp) (by simp)
      (by simp [hp, holdsLock])
  · rename_i hp
    obtain ⟨hfree, rfl⟩ := by simpa using hstep
    exact h.acquire hj _ hfree (by simp [hp, hasStored]) (.inr rfl)
  · cases hstep
    exact h.commit hj (by simpa [orderlyCall] using hok)
  · rename_i hp
    cases hstep
    exact h.goOn hj _ _ (by simp [hp, hasStored]) (by simp) (by simp)
      (by simp [holdsLock])
  · rename_i hp
    have hinv := h.examine hj hp hok
    split at hstep
    · rw [← apply_ite some] at hstep
      exact Option.some.inj hstep ▸ hinv
    · cases hstep
  · rename_i hp
    cases hstep
    exact h.restore hj hp
  · cases hstep

end

/-! ## Runs -/

theorem indexed_store (s : RetainStore) (packet : RetainPacket) (sender : Str)
    (limits : RetainConfig) (address : Nat) (now : Int) (hi : s.Indexed) :
    (s.store packet sender limits address now).2.Indexed := by
  by_cases htopic : storable packet.topicName
  · exact (store_spec packet sender limits address now hi htopic).1
  have hrefused : packet.topicName = [] ∨ 0x2b ∈ packet.topicName ∨ 0x23 ∈ packet.topicName := by
    by_contra hc
    exact htopic ⟨fun h => hc (.inl h), fun h => hc (.inr (.inl h)), fun h => hc (.inr (.inr h))⟩
  rw [store, if_pos hrefused]
  exact hi

theorem indexed_load (limits : RetainConfig) (now : Int)
    (records : List (RetainPacket × Str × Nat)) : (Broker.load limits now records).Indexed := by
  have hfold : ∀ (records : List (RetainPacket × Str × Nat)) (s : RetainStore), s.Indexed →
      (records.foldl (fun s r => (s.store r.1 r.2.1 limits r.2.2 now).2) s).Indexed := by
    intro records
    induction records with
    | nil => exact fun s hi => hi
    | cons r rest ih => exact fun s hi => ih _ (indexed_store s r.1 r.2.1 limits r.2.2 now hi)
  exact hfold records _ indexed_empty

theorem inv_start (h : b.Starts limits) : Inv b := by
  obtain ⟨now, records, rfl⟩ := h
  have hempty : ∀ (a : Nat) (k : Job), (Broker.start limits now records).jobs[a]? ≠ some k := by
    intro a k
    simp [Broker.start]
  refine ⟨indexed_load limits now records, fun a k hk => absurd hk (hempty a k),
    fun a k _ hk => absurd hk (hempty a k), fun a k hk => absurd hk (hempty a k), ?_⟩
  intro t ht
  refine ⟨fun a ha => absurd ha not_mem_nil, nodup_nil, trivial, ?_,
    fun a k _ hk => absurd hk (hempty a k), fun a k _ hk => absurd hk (hempty a k)⟩
  show Same now _ ((Broker.load limits now records).peek t now)
  rw [peek_eq_visible ht]
  exact (same_visible (Int.le_refl now) _).symm

theorem storable_of_retainTopicOk {topic} (h : Durable.retainTopicOk topic) : storable topic := by
  simp only [Durable.retainTopicOk, Bool.and_eq_true, Bool.not_eq_true', all_eq_true,
    decide_eq_true_eq] at h
  refine ⟨fun hnil => by simp [hnil] at h, fun hp => ?_, fun hh => ?_⟩
  · exact (h.2 _ hp).1.1 rfl
  · exact (h.2 _ hh).1.2 rfl

theorem Inv.arrive {packet sender} (h : Inv b) (hnew : b.jobs[id]? = none)
    (htopic : storable packet.topicName) : Inv (b.setJob id { packet, sender }) := by
  refine h.set rfl h.indexed htopic (fun _ hcopy => by cases hcopy)
    (fun hl => by simp [holdsLock] at hl) (fun a k _ => h.locks a k) fun t ht => ?_
  have hnot : id ∉ b.uncommitted t := by
    intro hid
    obtain ⟨k, hk, -⟩ := (h.topic t ht).members id hid
    simp [hnew] at hk
  refine (h.topic t ht).frame rfl rfl (Int.le_refl _) (Same.refl _) (keeps_insert hnot) ?_ ?_
  · intro a k now hk hkt hkp
    rcases get_insert_cases hk with ⟨-, rfl⟩ | ⟨-, hk⟩
    · simp at hkp
    · exact .inl hk
  · intro a k l hk hkt hkp
    rcases get_insert_cases hk with ⟨-, rfl⟩ | ⟨-, hk⟩
    · simp at hkp
    · exact .inl hk

theorem Inv.elapse {s clock} (h : Inv b) (hindexed : s.Indexed)
    (hthinned : Thinned now b.store s) (hnow : now ≤ b.clock) (hclock : b.clock ≤ clock) :
    Inv { b with store := s, clock := clock } := by
  refine ⟨hindexed, h.topics, h.previous, h.locks, fun t ht => ?_⟩
  exact (h.topic t ht).frame rfl rfl hclock (hthinned.same (Int.le_trans hnow hclock) t)
    (Keeps.refl _ _) (fun _ _ _ hk _ _ => .inl hk) fun _ _ _ hk _ _ => .inl hk

theorem inv_step {b' e} (h : Inv b) (hok : orderly b e)
    (hstep : b.step limits e = some b') : Inv b' := by
  cases e with
  | arrive id packet sender =>
    rw [Broker.step] at hstep
    split at hstep <;> cases hstep
    rename_i hnew
    exact h.arrive hnew.1 (storable_of_retainTopicOk hnew.2)
  | call id step =>
    cases hj : b.jobs[id]? with
    | none => simp [Broker.step, hj] at hstep
    | some j =>
      refine h.callStep hj ?_ (by simpa [Broker.step, hj] using hstep)
      simpa [orderly, hj] using hok
  | purge topics now =>
    obtain ⟨hnow, rfl⟩ := by simpa [Broker.step] using hstep
    obtain ⟨hthinned, hindexed⟩ := purge_spec now topics h.indexed
    exact h.elapse hindexed hthinned hnow (Int.le_refl _)
  | tick ns =>
    cases hstep
    exact h.elapse h.indexed (Thinned.refl b.store) (Int.le_refl b.clock) (by omega)

/-- In every run of orderly steps, when no publication is in flight the retained store shows
for every topic the value of the last publication on it whose commit succeeded. -/
theorem peek_eq_committed {limits : RetainConfig} {b : Broker}
    (h : Reach (Broker.step limits) (fun b e => orderly b e) (Broker.Starts limits) b)
    (hquiet : b.jobs.isEmpty) {topic : Str} (htopic : topic ≠ []) {now : Int}
    (hnow : b.clock ≤ now) : b.store.peek topic now = visible now (b.committed topic) := by
  have hinv : Inv b := h.invariant (fun _ => inv_start) fun _ _ _ => inv_step
  have ht := hinv.topic topic htopic
  have hnone : b.uncommitted topic = [] := by
    refine eq_nil_iff_forall_not_mem.2 fun id hid => ?_
    obtain ⟨j, hj, -⟩ := ht.members id hid
    simp [ExtTreeMap.isEmpty_iff.1 hquiet] at hj
  rw [peek_eq_visible htopic]
  simpa [hnone, shown] using ht.shows now hnow

/-! ## Two runs -/

def publicationOf (payload : UInt8) : RetainPacket where
  topicName := [0x74]
  payload := [payload]
  qos := 1
  messageExpiryInterval := none
  properties := {}

def wideLimits : RetainConfig := ⟨10, 100, 100⟩

def publishEvents (id : Nat) (payload : UInt8) : List Event :=
  [.arrive id (publicationOf payload) [], .call id .lock, .call id (.peekPrevious 0),
    .call id (.store id), .call id .peekInstalled, .call id .accept]

def rollbackEvents (id : Nat) : List Event :=
  [.call id .fail, .call id (.examine 0), .call id .restore]

def reverseRun : Option Broker :=
  runOk (Broker.step wideLimits) (fun b e => orderly b e) (.start wideLimits 0 [])
    (publishEvents 1 0x61 ++ [.call 1 .commit] ++ publishEvents 2 0x62 ++ publishEvents 3 0x63 ++
      rollbackEvents 3 ++ rollbackEvents 2)

theorem reverseRun_shows_committed :
    ∃ b, reverseRun = some b ∧ b.jobs.isEmpty ∧ (b.committed [0x74]).isSome ∧
      b.store.peek [0x74] 0 = visible 0 (b.committed [0x74]) := by
  have hrun : (reverseRun.map fun b => (b.jobs.isEmpty, b.clock,
      (b.committed [0x74]).isSome)) = some (true, 0, true) := by decide +kernel
  obtain ⟨b, hb, hfacts⟩ := Option.map_eq_some_iff.1 hrun
  simp only [Prod.mk.injEq] at hfacts
  obtain ⟨hquiet, hclock, hcommitted⟩ := hfacts
  have hreach : Reach (Broker.step wideLimits) (fun b e => orderly b e)
      (Broker.Starts wideLimits) b := reach_runOk (Reach.start ⟨0, [], rfl⟩) hb
  exact ⟨b, hb, hquiet, hcommitted, peek_eq_committed hreach hquiet (by simp) (Int.le_of_eq hclock)⟩

def forwardRun : Option Broker :=
  runOk (Broker.step wideLimits) (fun _ _ => True) (.start wideLimits 0 [])
    (publishEvents 1 0x61 ++ publishEvents 2 0x62 ++ [.call 1 .fail, .call 1 (.examine 0)] ++
      rollbackEvents 2)

/-- The first rollback finds the second value and returns; the second one puts back the
first value, which was never committed. -/
theorem uncommitted_value_restored :
    ∃ b, forwardRun = some b ∧ b.jobs.isEmpty ∧ b.clock = 0 ∧ b.committed [0x74] = none ∧
      b.store.peek [0x74] 0 =
        some ⟨[0x74], contentOf (publicationOf 0x61) [] 1, none⟩ := by
  have hrun : (forwardRun.map fun b => (b.jobs.isEmpty, b.clock, b.committed [0x74],
      b.store.peek [0x74] 0)) = some (true, 0, none,
        some ⟨[0x74], contentOf (publicationOf 0x61) [] 1, none⟩) := by decide +kernel
  obtain ⟨b, hb, hfacts⟩ := Option.map_eq_some_iff.1 hrun
  simp only [Prod.mk.injEq] at hfacts
  exact ⟨b, hb, hfacts⟩

end Mqtts.Retain

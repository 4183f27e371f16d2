import Mqtts.Retain.Store

/-!
# What the retained store's calls do

A call changes the slot of its own topic, and keeps the index exact.
-/

namespace Mqtts.Retain

open Std Function

namespace RetainStore

variable {s s' : RetainStore} {topic : Str} {now : Int}

/-- The index of the messages that expire is exact. -/
def Indexed (s : RetainStore) : Prop :=
  ∀ e topic, (e, topic) ∈ s.expiry ↔ ∃ m, s.slot topic = some m ∧ m.expiresAt = some e

theorem indexed_empty : empty.Indexed := by
  intro e topic
  simp [empty, slot]

theorem Indexed.update (h : s.Indexed) {v} (hslot : s'.slot = update s.slot topic v)
    (hexpiry : ∀ e t, (e, t) ∈ s'.expiry ↔
      if t = topic then v.bind (·.expiresAt) = some e else (e, t) ∈ s.expiry) :
    s'.Indexed := by
  intro e t
  rw [hexpiry, hslot]
  by_cases ht : t = topic
  · subst ht
    simp [Option.bind_eq_some_iff]
  · rw [if_neg ht, update_of_ne ht]
    exact h e t

/-! ## Erasures -/

theorem Indexed.accountRemoved (h : s.Indexed) (bytes : Nat) : (s.accountRemoved bytes).Indexed := h

theorem mem_unindex {expiry m e t} : (e, t) ∈ unindex expiry m topic ↔
      (e, t) ∈ expiry ∧ ¬ (t = topic ∧ m.expiresAt = some e) := by
  cases hm : m.expiresAt with
  | none => simp [unindex, hm]
  | some e' =>
    simp only [unindex, hm, ExtTreeSet.mem_erase, ne_eq, LawfulEqOrd.compare_eq_iff_eq,
      Prod.mk.injEq, Option.some.injEq]
    tauto

theorem eraseAt_eq_none : s.eraseAt topic = none ↔ s.slot topic = none := by
  rw [eraseAt, Option.map_eq_none_iff, Trie.eraseAt_eq_none]
  rfl

variable {bytes : Nat}

theorem eraseAt_spec (h : s.eraseAt topic = some (bytes, s')) :
    ∃ m, s.slot topic = some m ∧ bytes = m.payloadBytes ∧ s'.slot = update s.slot topic none ∧
      s'.expiry = unindex s.expiry m topic := by
  obtain ⟨⟨m, root⟩, hr, heq⟩ := Option.map_eq_some_iff.1 h
  cases heq
  obtain ⟨hfind, hnone, hother⟩ := Trie.find_eraseAt hr
  refine ⟨m, hfind, rfl, ?_, rfl⟩
  funext t
  by_cases ht : t = topic
  · rw [ht, update_self]
    exact hnone
  · rw [update_of_ne ht]
    exact hother _ fun h' => ht (topicLevels_injective h')

theorem Indexed.eraseAt (hi : s.Indexed) (h : s.eraseAt topic = some (bytes, s')) : s'.Indexed := by
  obtain ⟨m, hm, -, hslot, hexpiry⟩ := eraseAt_spec h
  refine hi.update hslot fun e t => ?_
  rw [hexpiry, mem_unindex]
  by_cases ht : t = topic
  · subst ht
    have hiff := hi e t
    simp only [hm, Option.some.injEq, exists_eq_left'] at hiff
    simp [hiff]
  · simp [ht]

theorem slot_remove (hne : topic ≠ []) : (s.remove topic).2.slot = update s.slot topic none := by
  rw [remove, if_neg hne]
  cases h : s.eraseAt topic with
  | none =>
    have hnone := eraseAt_eq_none.1 h
    exact (update_eq_self_iff.2 hnone.symm).symm
  | some r =>
    obtain ⟨-, -, -, hslot, -⟩ := eraseAt_spec h
    exact hslot

theorem Indexed.remove (hi : s.Indexed) (topic : Str) : (s.remove topic).2.Indexed := by
  rw [RetainStore.remove]
  by_cases hne : topic = []
  · rwa [if_pos hne]
  · rw [if_neg hne]
    cases h : s.eraseAt topic with
    | none => exact hi
    | some r => exact (hi.eraseAt h).accountRemoved r.1

/-! ## Dropping messages whose time has come -/

/-- Messages whose time has come may be dropped. -/
def Thinned (now : Int) (s s' : RetainStore) : Prop :=
  ∀ topic, s'.slot topic = s.slot topic ∨
    (s'.slot topic = none ∧ ∃ m, s.slot topic = some m ∧ reached m.expiresAt now)

theorem Thinned.refl (s : RetainStore) : Thinned now s s := fun _ => .inl rfl

theorem Thinned.trans {s''} (h : Thinned now s s') (h' : Thinned now s' s'') :
    Thinned now s s'' := by
  intro t
  rcases h t with h1 | ⟨h1, hm⟩ <;> rcases h' t with h2 | ⟨h2, hm'⟩
  · exact .inl (h2.trans h1)
  · exact .inr ⟨h2, h1 ▸ hm'⟩
  · exact .inr ⟨h2.trans h1, hm⟩
  · exact .inr ⟨h2, hm⟩

theorem thinned_eraseAt {m} (h : s.eraseAt topic = some (bytes, s'))
    (hm : s.slot topic = some m) (hr : reached m.expiresAt now) :
    Thinned now s (s'.accountRemoved bytes) := by
  obtain ⟨-, -, -, hslot, -⟩ := eraseAt_spec h
  intro t
  rw [show (s'.accountRemoved bytes).slot = _ from hslot]
  by_cases ht : t = topic
  · subst ht
    exact .inr ⟨update_self .., m, hm, hr⟩
  · exact .inl (update_of_ne ht _ _)

open Thinned

/-- A round drops a message whose time has come. -/
theorem reclaimLoop_invariant {P : RetainStore → Int → Int → Prop}
    (hround : ∀ {s topic m removed s₁ messages bytes}, P s messages bytes →
      s.slot topic = some m → reached m.expiresAt now → s.eraseAt topic = some (removed, s₁) →
      P (s₁.accountRemoved removed) (messages - 1) (bytes - removed)) :
    ∀ (rounds : Nat) {s messages bytes}, s.Indexed → P s messages bytes →
      (reclaimLoop now rounds s messages bytes).1.Indexed ∧
        P (reclaimLoop now rounds s messages bytes).1 (reclaimLoop now rounds s messages bytes).2.1
          (reclaimLoop now rounds s messages bytes).2.2
  | 0, s, messages, bytes, hi, h => ⟨hi, h⟩
  | rounds + 1, s, messages, bytes, hi, h => by
    rw [reclaimLoop]
    cases hmin : s.expiry.min? with
    | none => exact ⟨hi, h⟩
    | some key =>
      obtain ⟨expires, topic⟩ := key
      by_cases hle : expires ≤ now
      · obtain ⟨m, hm, hexp⟩ := (hi expires topic).1 (ExtTreeSet.min?_mem hmin)
        cases he : s.eraseAt topic with
        | none => simp [eraseAt_eq_none.1 he] at hm
        | some r =>
          have hr : reached m.expiresAt now := by simpa [reached, hexp] using hle
          simp only [hle, if_true, he]
          exact reclaimLoop_invariant hround rounds ((hi.eraseAt he).accountRemoved r.1)
            (hround h hm hr he)
      · simp only [hle, if_false]
        exact ⟨hi, h⟩

theorem purgeTopic_spec (now : Int) (topic : Str) (hi : s.Indexed) :
    Thinned now s (s.purgeTopic now topic) ∧ (s.purgeTopic now topic).Indexed := by
  rw [purgeTopic]
  cases hm : s.slot topic with
  | none => exact ⟨refl s, hi⟩
  | some m =>
    by_cases hr : reached m.expiresAt now
    · cases he : s.eraseAt topic with
      | none => simp [eraseAt_eq_none.1 he] at hm
      | some r =>
        obtain ⟨removed, s1⟩ := r
        simp only [hr, if_true]
        exact ⟨thinned_eraseAt he hm hr, (hi.eraseAt he).accountRemoved removed⟩
    · simp only [hr]
      exact ⟨refl s, hi⟩

theorem purge_spec (now : Int) (topics : List Str) (hi : s.Indexed) :
    Thinned now s (s.purge topics now) ∧ (s.purge topics now).Indexed := by
  induction topics generalizing s with
  | nil => exact ⟨refl s, hi⟩
  | cons t rest ih =>
    obtain ⟨h1, h2⟩ := purgeTopic_spec now t hi
    obtain ⟨h3, h4⟩ := ih h2
    exact ⟨h1.trans h3, h4⟩

/-! ## Writes -/

theorem slot_set (m : NodeMessage) {root}
    (hroot : root = s.root.set m (topicLevels topic)) (hs' : s'.root = root) :
    s'.slot = update s.slot topic (some m) := by
  funext t
  rw [slot, hs', hroot]
  by_cases ht : t = topic
  · rw [ht, update_self, Trie.find_set_self]
  · rw [update_of_ne ht, Trie.find_set_of_ne _ _ fun h' => ht (topicLevels_injective h')]
    rfl

theorem mem_index {expiry new e t} :
    (e, t) ∈ index expiry new topic ↔ (t = topic ∧ new = some e) ∨ (e, t) ∈ expiry := by
  cases new with
  | none => simp [index]
  | some e' =>
    simp only [index, ExtTreeSet.mem_insert, LawfulEqOrd.compare_eq_iff_eq, Prod.mk.injEq,
      Option.some.injEq]
    tauto

section Reindex

variable {expiry : ExtTreeSet (Int × Str)} {old : Option NodeMessage} {new : Option Int}
  (hold : ∀ e : Int, (e, topic) ∈ expiry ↔ ∃ m, old = some m ∧ m.expiresAt = some e)
include hold

theorem mem_installIndex (e : Int) (t : Str) : (e, t) ∈ installIndex expiry old new topic ↔
      if t = topic then new = some e else (e, t) ∈ expiry := by
  by_cases ht : t = topic
  · subst ht
    cases old with
    | none => simp [installIndex, mem_index, hold]
    | some m =>
      have hold' : ∀ e : Int, (e, t) ∈ expiry ↔ m.expiresAt = some e := by simpa using hold
      by_cases hsame : new.isSome ∧ m.expiresAt = new
      · simp [installIndex, hsame, mem_index, hold']
      · simp only [installIndex, hsame, if_false, mem_unindex, mem_index, hold', true_and, if_true]
        constructor
        · tauto
        · rintro rfl
          exact ⟨.inl rfl, fun h => hsame ⟨rfl, h⟩⟩
  · cases old with
    | none => simp [installIndex, mem_index, ht]
    | some m =>
      rw [installIndex]
      split
      · simp [mem_index, ht]
      · simp [mem_unindex, mem_index, ht]

theorem mem_storeIndex (e : Int) (t : Str) : (e, t) ∈ storeIndex expiry old new topic ↔
      if t = topic then new = some e else (e, t) ∈ expiry := by
  rw [← mem_installIndex hold e t]
  cases old with
  | none => simp [storeIndex, installIndex]
  | some m =>
    have hold' : ∀ e : Int, (e, topic) ∈ expiry ↔ m.expiresAt = some e := by simpa using hold
    by_cases hsame : new.isSome ∧ m.expiresAt = new
    · -- the pair is in the index already, and inserting it changes nothing
      have hpair : t = topic → new = some e → (e, t) ∈ expiry := by
        rintro rfl hnew
        exact (hold' e).2 (hsame.2.trans hnew)
      simp only [storeIndex, installIndex, hsame, Option.any_some, beq_self_eq_true,
        Bool.and_self, if_true, and_self, mem_index]
      tauto
    · have hfalse : ((some m).any (fun m => m.expiresAt == new) && new.isSome) = false := by
        simpa [and_comm] using hsame
      simp only [storeIndex, installIndex, hfalse, hsame, if_false, Bool.false_eq_true]

end Reindex

def ofCopy (copy : RetainedCopy) : NodeMessage :=
  ⟨copy.content, copy.expiresAt, copy.content.payload.length⟩

theorem slot_install {copy : RetainedCopy} (hne : copy.topic ≠ []) :
    (s.install copy).2.slot = update s.slot copy.topic (some (ofCopy copy)) := by
  rw [install, if_neg hne]
  exact slot_set _ rfl rfl

theorem Indexed.install (hi : s.Indexed) (copy : RetainedCopy) : (s.install copy).2.Indexed := by
  by_cases hne : copy.topic = []
  · rw [RetainStore.install, if_pos hne]
    exact hi
  · refine hi.update (slot_install hne) fun e t => ?_
    rw [RetainStore.install, if_neg hne]
    exact mem_installIndex (fun e => hi e copy.topic) e t

/-! ## `store` -/

theorem reclaimExpired_spec (now : Int) (hi : s.Indexed) :
    Thinned now s (s.reclaimExpired now).1 ∧ (s.reclaimExpired now).1.Indexed :=
  (reclaimLoop_invariant (P := fun t _ _ => Thinned now s t)
    (fun h hm hr he => h.trans (thinned_eraseAt he hm hr)) _ hi (refl s)).symm

def storable (topic : Str) : Prop := topic ≠ [] ∧ 0x2b ∉ topic ∧ 0x23 ∉ topic

def requested (packet : RetainPacket) (sender : Str) (address : Nat) (now : Int) :
    Option RetainedCopy :=
  if deletes packet then none
  else some ⟨packet.topicName, contentOf packet sender address, expiryOf packet now⟩

/-- What a write of `packet` has done to the store: it was rejected and dropped expired
messages at most, or it dropped expired messages and then gave the topic the value that
the packet asks for. -/
def Written (packet : RetainPacket) (sender : Str) (address : Nat) (now : Int)
    (s : RetainStore) (r : RetainWriteResult × RetainStore) : Prop :=
  ((∃ reason, r.1.kind = .rejected reason) ∧ deletes packet = false ∧ Thinned now s r.2) ∨
    ((∀ reason, r.1.kind ≠ .rejected reason) ∧ ∃ s₁, Thinned now s s₁ ∧
      r.2.slot = update s₁.slot packet.topicName ((requested packet sender address now).map ofCopy))

section Store

variable {packet : RetainPacket} {sender : Str} {limits : RetainConfig} {address : Nat}

theorem written_remove (hne : packet.topicName ≠ []) (hd : deletes packet) :
    Written packet sender address now s (s.remove packet.topicName) := by
  refine .inr ⟨fun reason => ?_, s, refl s, ?_⟩
  · rw [remove, if_neg hne]
    cases s.eraseAt packet.topicName <;> simp
  · rw [slot_remove hne, requested, if_pos hd]
    rfl

theorem storeReclaimed_spec (hi : s.Indexed) (hd : deletes packet = false) (messages bytes : Int) :
    (s.storeReclaimed packet sender limits address now messages bytes).2.Indexed ∧
      Written packet sender address now s
        (s.storeReclaimed packet sender limits address now messages bytes) := by
  have hreq : (requested packet sender address now).map ofCopy =
      some ⟨contentOf packet sender address, expiryOf packet now, packet.payload.length⟩ := by
    simp [requested, hd, ofCopy, contentOf]
  rw [storeReclaimed]
  by_cases hcount : s.messageCount - (if (s.slot packet.topicName).isSome then 1 else 0) + 1 >
      limits.maxMessages
  · rw [if_pos hcount]
    exact ⟨hi, .inl ⟨⟨_, rfl⟩, hd, refl s⟩⟩
  by_cases hbytes : s.totalBytes - ((s.slot packet.topicName).map (·.payloadBytes)).getD 0 +
      packet.payload.length > limits.maxTotalBytes
  · rw [if_neg hcount, if_pos hbytes]
    exact ⟨hi, .inl ⟨⟨_, rfl⟩, hd, refl s⟩⟩
  rw [if_neg hcount, if_neg hbytes]
  refine ⟨hi.update (slot_set _ rfl rfl) (mem_storeIndex fun e => hi e packet.topicName), ?_⟩
  refine .inr ⟨fun reason => ?_, s, refl s, ?_⟩
  · cases (s.slot packet.topicName).isSome <;> simp
  · rw [hreq]
    exact slot_set _ rfl rfl

theorem Written.of_thinned {r} (hthin : Thinned now s s')
    (h : Written packet sender address now s' r) : Written packet sender address now s r := by
  rcases h with ⟨hrej, hd, h⟩ | ⟨hok, s₁, h, hslot⟩
  · exact .inl ⟨hrej, hd, hthin.trans h⟩
  · exact .inr ⟨hok, s₁, hthin.trans h, hslot⟩

theorem store_spec (packet : RetainPacket) (sender : Str) (limits : RetainConfig)
    (address : Nat) (now : Int) (hi : s.Indexed) (htopic : storable packet.topicName) :
    (s.store packet sender limits address now).2.Indexed ∧
      Written packet sender address now s (s.store packet sender limits address now) := by
  obtain ⟨hne, hplus, hhash⟩ := htopic
  rw [store]
  simp only [hne, hplus, hhash, or_self, if_false]
  split_ifs with hpayload hzero hlimit
  · exact ⟨hi.remove _, written_remove hne (by simp [deletes, hpayload])⟩
  · exact ⟨hi.remove _, written_remove hne (by simp [deletes, hzero])⟩
  · exact ⟨hi, .inl ⟨⟨_, rfl⟩, by simp [deletes, hpayload, hzero], refl s⟩⟩
  · have hd : deletes packet = false := by simp [deletes, hpayload, hzero]
    obtain ⟨hthin, hi₁⟩ := reclaimExpired_spec now hi
    obtain ⟨hi₂, hw⟩ := storeReclaimed_spec hi₁ hd (s.reclaimExpired now).2.1
      (s.reclaimExpired now).2.2
    exact ⟨hi₂, hw.of_thinned hthin⟩

end Store

end RetainStore

end Mqtts.Retain

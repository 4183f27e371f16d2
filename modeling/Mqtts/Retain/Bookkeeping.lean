import Mqtts.Lib.Runs
import Mqtts.Retain.Match

/-!
# The books of the retained store

The message count, the byte total, the expiry index and the nodes of the trie are kept up by hand in
every call. A run is any sequence of calls with one configuration; it adds up the deltas that the
calls report. The limits are checked by `store` alone: `install`, which puts back the value a failed
commit has replaced, takes none.
-/

namespace Mqtts.Retain

open Runs RetainStore

namespace RetainStore

variable {s s' : RetainStore} {topic : Str} {now : Int}

/-! ## Exact books -/

/-- The books agree with the messages in the trie. -/
structure Exact (s : RetainStore) : Prop where
  formed : s.Formed
  indexed : s.Indexed
  count : s.messageCount = s.root.total fun _ => 1
  bytes : s.totalBytes = s.root.total (·.payloadBytes)
  sized : ∀ {path m}, s.root.find path = some m → m.payloadBytes = m.content.payload.length

theorem exact_empty : empty.Exact where
  formed := by
    refine ⟨Trie.tidy_empty, ?_⟩
    intro path m hfind
    rw [empty, Trie.find_empty] at hfind
    cases hfind
  indexed := indexed_empty
  count := rfl
  bytes := rfl
  sized := by
    intro path m hfind
    rw [empty, Trie.find_empty] at hfind
    cases hfind

structure Moved (s s' : RetainStore) (messageDelta byteDelta : Int) : Prop where
  kept : s'.Exact
  messages : (s'.messageCount : Int) = s.messageCount + messageDelta
  bytes : (s'.totalBytes : Int) = s.totalBytes + byteDelta

theorem Exact.moved (h : s.Exact) : Moved s s 0 0 :=
  ⟨h, (add_zero _).symm, (add_zero _).symm⟩

theorem Moved.trans {s'' m m' b b'} (h : Moved s s' m b)
    (h' : Moved s' s'' m' b') : Moved s s'' (m + m') (b + b') := by
  refine ⟨h'.kept, ?_, ?_⟩
  · rw [h'.messages, h.messages, add_assoc]
  · rw [h'.bytes, h.bytes, add_assoc]

structure Within (limits : RetainConfig) (s : RetainStore) : Prop where
  count : s.messageCount ≤ limits.maxMessages
  bytes : s.totalBytes ≤ limits.maxTotalBytes
  payload : ∀ {path m}, s.root.find path = some m → m.content.payload.length ≤ limits.payloadLimit

/-! ## Erasing -/

variable {removed : Nat} {limits : RetainConfig}

theorem eraseAt_eq_some (h : s.eraseAt topic = some (removed, s')) :
    ∃ m root, s.root.eraseAt (topicLevels topic) = some (m, root) ∧ removed = m.payloadBytes ∧
      s' = { s with root, expiry := unindex s.expiry m topic } := by
  obtain ⟨⟨m, root⟩, hr, heq⟩ := Option.map_eq_some_iff.1 h
  cases heq
  exact ⟨m, root, hr, rfl, rfl⟩

theorem Exact.eraseAt (h : s.Exact) (he : s.eraseAt topic = some (removed, s')) :
    Moved s (s'.accountRemoved removed) (-1) (-removed) := by
  have hindexed := (h.indexed.eraseAt he).accountRemoved removed
  obtain ⟨m, root, hroot, rfl, rfl⟩ := eraseAt_eq_some he
  obtain ⟨-, hnone, hother⟩ := Trie.find_eraseAt hroot
  have hcount := Trie.total_eraseAt (f := fun _ => 1) h.formed.tidy hroot
  have hbytes := Trie.total_eraseAt (f := (·.payloadBytes)) h.formed.tidy hroot
  rw [← h.count] at hcount
  rw [← h.bytes] at hbytes
  have hrest : ∀ {path m'}, root.find path = some m' → s.root.find path = some m' := by
    intro path m' hfind
    by_cases hpath : path = topicLevels topic
    · rw [hpath, hnone] at hfind
      cases hfind
    · rwa [hother path hpath] at hfind
  have hle : s.totalBytes ≥ m.payloadBytes := by omega
  refine ⟨⟨⟨Trie.tidy_eraseAt h.formed.tidy hroot, fun hf => h.formed.named (hrest hf)⟩,
    hindexed, ?_, ?_, fun hf => h.sized (hrest hf)⟩, ?_, ?_⟩
  · show s.messageCount - 1 = root.total fun _ => 1
    omega
  · show (if s.totalBytes ≥ m.payloadBytes then s.totalBytes - m.payloadBytes else 0) =
      root.total (·.payloadBytes)
    rw [if_pos hle]
    omega
  · show ((s.messageCount - 1 : Nat) : Int) = _
    omega
  · show ((if s.totalBytes ≥ m.payloadBytes then s.totalBytes - m.payloadBytes else 0 : Nat) :
      Int) = _
    rw [if_pos hle]
    omega

theorem Within.eraseAt (h : s.Within limits) (he : s.eraseAt topic = some (removed, s')) :
    (s'.accountRemoved removed).Within limits := by
  obtain ⟨m, root, hroot, rfl, rfl⟩ := eraseAt_eq_some he
  obtain ⟨-, hnone, hother⟩ := Trie.find_eraseAt hroot
  refine ⟨(Nat.sub_le ..).trans h.count, ?_, ?_⟩
  · have hbytes := h.bytes
    show (if s.totalBytes ≥ m.payloadBytes then s.totalBytes - m.payloadBytes else 0) ≤ _
    split <;> omega
  · intro path m' hfind
    by_cases hpath : path = topicLevels topic
    · have hfind' : root.find path = some m' := hfind
      rw [hpath, hnone] at hfind'
      cases hfind'
    · exact h.payload ((hother path hpath).symm.trans hfind)

/-- A sequence of erasures. -/
inductive Erased : RetainStore → RetainStore → Int → Int → Prop where
  | refl (s : RetainStore) : Erased s s 0 0
  | step {s s₁ s' : RetainStore} {topic : Str} {removed : Nat} {messages bytes : Int} :
      Erased s s₁ messages bytes → s₁.eraseAt topic = some (removed, s') →
      Erased s (s'.accountRemoved removed) (messages - 1) (bytes - removed)

theorem Exact.erased {messages bytes} (h : s.Exact) (he : Erased s s' messages bytes) :
    Moved s s' messages bytes := by
  induction he with
  | refl => exact h.moved
  | step _ herase ih => exact ih.trans (ih.kept.eraseAt herase)

theorem Within.erased {messages bytes} (h : s.Within limits) (he : Erased s s' messages bytes) :
    s'.Within limits := by
  induction he with
  | refl => exact h
  | step _ herase ih => exact ih.eraseAt herase

theorem erased_remove (s : RetainStore) (topic : Str) :
    Erased s (s.remove topic).2 (s.remove topic).1.messageDelta (s.remove topic).1.byteDelta := by
  rw [remove]
  split
  · exact .refl s
  · cases he : s.eraseAt topic with
    | none => exact .refl s
    | some r =>
      have hone := Erased.step (.refl s) he
      rw [zero_sub, zero_sub] at hone
      exact hone

theorem erased_reclaimExpired (now : Int) (hi : s.Indexed) :
    Erased s (s.reclaimExpired now).1 (s.reclaimExpired now).2.1 (s.reclaimExpired now).2.2 :=
  (reclaimLoop_invariant (fun h _ _ he => .step h he) _ hi (.refl s)).2

theorem erased_purgeLoop (now : Int) : ∀ topics {t messages bytes}, Erased s t messages bytes →
    Erased s (purgeLoop now topics t messages bytes).1 (purgeLoop now topics t messages bytes).2.1
      (purgeLoop now topics t messages bytes).2.2
  | [], _, _, _, h => h
  | topic :: topics, t, _, _, h => by
    have hskip := erased_purgeLoop now topics h
    rw [purgeLoop]
    cases hm : t.slot topic with
    | none => exact hskip
    | some m =>
      by_cases hr : reached m.expiresAt now
      · simp only [hr, if_true]
        cases he : t.eraseAt topic with
        | none => exact hskip
        | some r => exact erased_purgeLoop now topics (h.step he)
      · simp only [hr]
        exact hskip

theorem erased_retrieve (s : RetainStore) (order : VisitOrder) (filter : Str) (limit : Nat)
    (now : Int) : Erased s (s.retrieve order filter limit now).2
      (s.retrieve order filter limit now).1.messageDelta
      (s.retrieve order filter limit now).1.byteDelta := by
  rw [retrieve]
  split
  · exact .refl s
  · exact erased_purgeLoop now _ (.refl s)

/-! ## Writing -/

section Write

variable {m : NodeMessage} (hroot : s'.root = s.root.set m (topicLevels topic))
include hroot

theorem find_write {path m'} (hfind : s'.root.find path = some m') :
    (path = topicLevels topic ∧ m' = m) ∨ s.root.find path = some m' := by
  rw [hroot] at hfind
  by_cases hpath : path = topicLevels topic
  · rw [hpath, Trie.find_set_self] at hfind
    exact .inl ⟨hpath, (Option.some.inj hfind).symm⟩
  · rw [Trie.find_set_of_ne _ _ hpath] at hfind
    exact .inr hfind

/-- The step of `install` and `store` that writes a message. -/
theorem Exact.write (h : s.Exact) (hne : topic ≠ [])
    (hsize : m.payloadBytes = m.content.payload.length) (hindexed : s'.Indexed)
    (hcount : s'.messageCount = s.messageCount - (if (s.slot topic).isSome then 1 else 0) + 1)
    (hbytes : s'.totalBytes =
      s.totalBytes - ((s.slot topic).map (·.payloadBytes)).getD 0 + m.payloadBytes) :
    Moved s s' (if (s.slot topic).isSome then 0 else 1)
      (m.payloadBytes - ((s.slot topic).map (·.payloadBytes)).getD 0) := by
  have hones := Trie.total_set (f := fun _ => 1) (p := topicLevels topic) (v := m) h.formed.tidy
  have hsizes := Trie.total_set (f := (·.payloadBytes)) (p := topicLevels topic) (v := m)
    h.formed.tidy
  have hones_le := Trie.le_total (f := fun _ => 1) (p := topicLevels topic) h.formed.tidy
  have hsizes_le := Trie.le_total (f := (·.payloadBytes)) (p := topicLevels topic) h.formed.tidy
  change _ + ((s.slot topic).map _).getD 0 = _ at hones hsizes
  change ((s.slot topic).map _).getD 0 ≤ _ at hones_le hsizes_le
  have hone : ((s.slot topic).map fun _ => 1).getD 0 =
      if (s.slot topic).isSome then 1 else 0 := by
    cases s.slot topic <;> rfl
  rw [hone, ← h.count, ← hroot] at hones
  rw [hone, ← h.count] at hones_le
  rw [← h.bytes, ← hroot] at hsizes
  rw [← h.bytes] at hsizes_le
  refine ⟨⟨⟨?_, ?_⟩, hindexed, ?_, ?_, ?_⟩, ?_, ?_⟩
  · rw [hroot]
    exact Trie.tidy_set h.formed.tidy
  · intro path m' hfind
    rcases find_write hroot hfind with ⟨hpath, -⟩ | hold
    · exact ⟨topic, hne, hpath⟩
    · exact h.formed.named hold
  · omega
  · omega
  · intro path m' hfind
    rcases find_write hroot hfind with ⟨-, rfl⟩ | hold
    · exact hsize
    · exact h.sized hold
  · cases hslot : (s.slot topic).isSome with
    | false =>
      rw [hslot, if_neg Bool.false_ne_true] at hcount
      rw [if_neg Bool.false_ne_true]
      omega
    | true =>
      rw [hslot, if_pos rfl] at hcount hones_le
      rw [if_pos rfl]
      omega
  · omega

theorem Within.write {limits} (h : s.Within limits)
    (hpayload : m.content.payload.length ≤ limits.payloadLimit)
    (hcount : s'.messageCount ≤ limits.maxMessages)
    (hbytes : s'.totalBytes ≤ limits.maxTotalBytes) : s'.Within limits := by
  refine ⟨hcount, hbytes, ?_⟩
  intro path m' hfind
  rcases find_write hroot hfind with ⟨-, rfl⟩ | hold
  · exact hpayload
  · exact h.payload hold

end Write

theorem Exact.install (h : s.Exact) (copy : RetainedCopy) :
    Moved s (s.install copy).2 (s.install copy).1.messageDelta (s.install copy).1.byteDelta := by
  have hindexed := h.indexed.install copy
  have hle := Trie.le_total (f := (·.payloadBytes)) (p := topicLevels copy.topic) h.formed.tidy
  rw [← h.bytes] at hle
  by_cases hne : copy.topic = []
  · rw [RetainStore.install, if_pos hne]
    exact h.moved
  · rw [RetainStore.install, if_neg hne] at hindexed ⊢
    exact h.write (m := ofCopy copy) rfl hne rfl hindexed rfl (if_pos hle)

def hasRoom (limits : RetainConfig) (s : RetainStore) (topic : Str) (payloadBytes : Nat) : Bool :=
  payloadBytes ≤ limits.payloadLimit &&
  s.messageCount - (if (s.slot topic).isSome then 1 else 0) + 1 ≤ limits.maxMessages &&
  s.totalBytes - ((s.slot topic).map (·.payloadBytes)).getD 0 + payloadBytes ≤ limits.maxTotalBytes

theorem Within.install {copy} (h : s.Within limits) (hexact : s.Exact)
    (hroom : hasRoom limits s copy.topic copy.content.payload.length) :
    (s.install copy).2.Within limits := by
  have hle := Trie.le_total (f := (·.payloadBytes)) (p := topicLevels copy.topic) hexact.formed.tidy
  rw [← hexact.bytes] at hle
  simp only [hasRoom, Bool.and_eq_true, decide_eq_true_eq] at hroom
  by_cases hne : copy.topic = []
  · rw [RetainStore.install, if_pos hne]
    exact h
  · rw [RetainStore.install, if_neg hne]
    refine h.write (m := ofCopy copy) rfl hroom.1.1 hroom.1.2 ?_
    exact Nat.le_trans (Nat.le_of_eq (if_pos hle)) hroom.2

section Store

variable {packet : RetainPacket} {sender : Str} {limits : RetainConfig} {address : Nat}

inductive Stores (limits : RetainConfig) (packet : RetainPacket) (sender : Str) (address : Nat)
    (now : Int) (s : RetainStore) : RetainWriteResult × RetainStore → Prop where
  | ignored : Stores limits packet sender address now s ({}, s)
  | removed : Stores limits packet sender address now s (s.remove packet.topicName)
  | tooLarge : Stores limits packet sender address now s ({ kind := .rejected .payloadLimit }, s)
  | noRoom (reason : RejectReason) {s₁ : RetainStore} {messages bytes : Int} :
      s.reclaimExpired now = (s₁, messages, bytes) →
      Stores limits packet sender address now s
        ({ kind := .rejected reason, messageDelta := messages, byteDelta := bytes }, s₁)
  | written {s₁ s' : RetainStore} {messages bytes : Int} : packet.topicName ≠ [] →
      s.reclaimExpired now = (s₁, messages, bytes) →
      hasRoom limits s₁ packet.topicName packet.payload.length →
      s' = { root := s₁.root.set ⟨contentOf packet sender address, expiryOf packet now,
               packet.payload.length⟩ (topicLevels packet.topicName)
             expiry := storeIndex s₁.expiry (s₁.slot packet.topicName) (expiryOf packet now)
               packet.topicName
             messageCount :=
               s₁.messageCount - (if (s₁.slot packet.topicName).isSome then 1 else 0) + 1
             totalBytes := s₁.totalBytes -
               ((s₁.slot packet.topicName).map (·.payloadBytes)).getD 0 + packet.payload.length } →
      Stores limits packet sender address now s
        ({ kind := if (s₁.slot packet.topicName).isSome then .replaced else .stored
           messageDelta := messages + (if (s₁.slot packet.topicName).isSome then 0 else 1)
           byteDelta := bytes + packet.payload.length -
             (((s₁.slot packet.topicName).map (·.payloadBytes)).getD 0 : Nat) }, s')

theorem stores (limits : RetainConfig) (packet : RetainPacket) (sender : Str) (address : Nat)
    (now : Int) (s : RetainStore) : Stores limits packet sender address now s
      (s.store packet sender limits address now) := by
  rw [store]
  simp only
  split
  · exact .ignored
  rename_i htopic
  split
  · exact .removed
  split
  · exact .removed
  split
  · exact .tooLarge
  rename_i hlimit
  generalize hre : s.reclaimExpired now = r
  obtain ⟨s₁, messages, bytes⟩ := r
  show Stores limits packet sender address now s
    (s₁.storeReclaimed packet sender limits address now messages bytes)
  rw [storeReclaimed]
  by_cases hcount : s₁.messageCount -
      (if (s₁.slot packet.topicName).isSome then 1 else 0) + 1 > limits.maxMessages
  · rw [if_pos hcount]
    exact .noRoom .countLimit hre
  · rw [if_neg hcount]
    by_cases hbytes : s₁.totalBytes -
        ((s₁.slot packet.topicName).map (·.payloadBytes)).getD 0 + packet.payload.length >
        limits.maxTotalBytes
    · rw [if_pos hbytes]
      exact .noRoom .byteLimit hre
    · rw [if_neg hbytes]
      refine .written (fun hne => htopic (.inl hne)) hre ?_ rfl
      simp only [hasRoom, Bool.and_eq_true, decide_eq_true_eq]
      exact ⟨⟨Nat.not_lt.1 hlimit, Nat.not_lt.1 hcount⟩, Nat.not_lt.1 hbytes⟩

theorem Indexed.reclaimExpired (hi : s.Indexed) {s₁ messages bytes}
    (hre : s.reclaimExpired now = (s₁, messages, bytes)) : Erased s s₁ messages bytes := by
  have herased := erased_reclaimExpired now hi
  rw [hre] at herased
  exact herased

theorem Exact.store (h : s.Exact) : Moved s (s.store packet sender limits address now).2
      (s.store packet sender limits address now).1.messageDelta
      (s.store packet sender limits address now).1.byteDelta := by
  have hstores := stores limits packet sender address now s
  generalize s.store packet sender limits address now = r at hstores ⊢
  cases hstores with
  | ignored => exact h.moved
  | removed => exact h.erased (erased_remove s packet.topicName)
  | tooLarge => exact h.moved
  | noRoom reason hre => exact h.erased (h.indexed.reclaimExpired hre)
  | @written s₁ s₂ _ _ hne hre _ hs₂ =>
    have hreclaimed := h.erased (h.indexed.reclaimExpired hre)
    have hroot : s₂.root = s₁.root.set ⟨contentOf packet sender address, expiryOf packet now,
        packet.payload.length⟩ (topicLevels packet.topicName) := by
      rw [hs₂]
    have hindexed : s₂.Indexed := by
      refine hreclaimed.kept.indexed.update (slot_set _ rfl hroot) ?_
      rw [hs₂]
      exact mem_storeIndex fun e => hreclaimed.kept.indexed e packet.topicName
    have hwritten := hreclaimed.kept.write hroot hne rfl hindexed (by rw [hs₂]) (by rw [hs₂])
    have hboth := hreclaimed.trans hwritten
    rw [← add_sub_assoc] at hboth
    exact hboth

theorem Within.store (h : s.Within limits) (hexact : s.Exact) :
    (s.store packet sender limits address now).2.Within limits := by
  have hstores := stores limits packet sender address now s
  generalize s.store packet sender limits address now = r at hstores ⊢
  cases hstores with
  | ignored => exact h
  | removed => exact h.erased (erased_remove s packet.topicName)
  | tooLarge => exact h
  | noRoom reason hre => exact h.erased (hexact.indexed.reclaimExpired hre)
  | written hne hre hroom hs' =>
    have hreclaimed := h.erased (hexact.indexed.reclaimExpired hre)
    subst hs'
    simp only [hasRoom, Bool.and_eq_true, decide_eq_true_eq] at hroom
    exact hreclaimed.write rfl hroom.1.1 hroom.1.2 hroom.2

theorem slot_of_rejected {reason} (hi : s.Indexed)
    (hkind : (s.store packet sender limits address now).1.kind = .rejected reason)
    (hlive : ∀ m, s.slot topic = some m → reached m.expiresAt now = false) :
    (s.store packet sender limits address now).2.slot topic = s.slot topic := by
  have hstores := stores limits packet sender address now s
  generalize s.store packet sender limits address now = r at hstores hkind ⊢
  cases hstores with
  | ignored => cases hkind
  | removed =>
    rw [remove] at hkind
    split_ifs at hkind
    cases he : s.eraseAt packet.topicName with
    | none | some =>
      rw [he] at hkind
      cases hkind
  | tooLarge => rfl
  | noRoom reason hre =>
    have hthinned := (reclaimExpired_spec now hi).1
    rw [hre] at hthinned
    rcases hthinned topic with hsame | ⟨-, m, hm, hreached⟩
    · exact hsame
    · rw [hlive m hm] at hreached
      cases hreached
  | @written s₁ _ _ _ _ _ _ _ =>
    have hkind' := hkind
    split at hkind' <;> cases hkind'

end Store

end RetainStore

/-! ## Runs -/

inductive Call where
  | store (packet : RetainPacket) (sender : Str) (address : Nat) (now : Int)
  | install (copy : RetainedCopy)
  | remove (topic : Str)
  | retrieve (order : VisitOrder) (filter : Str) (limit : Nat) (now : Int)
  /-- The end of a `match`, when other calls came between its walk and its purge. -/
  | purge (topics : List Str) (now : Int)
  | reclaimExpired (now : Int)

namespace Call

def run (limits : RetainConfig) (s : RetainStore) : Call → RetainStore × Int × Int
  | .store packet sender address now =>
    let (result, s) := s.store packet sender limits address now
    (s, result.messageDelta, result.byteDelta)
  | .install copy =>
    let (result, s) := s.install copy
    (s, result.messageDelta, result.byteDelta)
  | .remove topic =>
    let (result, s) := s.remove topic
    (s, result.messageDelta, result.byteDelta)
  | .retrieve order filter limit now =>
    let (result, s) := s.retrieve order filter limit now
    (s, result.messageDelta, result.byteDelta)
  | .purge topics now => purgeLoop now topics s 0 0
  | .reclaimExpired now => s.reclaimExpired now

/-- An `install` finds the room that a `store` would ask for. -/
def hasRoom (limits : RetainConfig) (s : RetainStore) : Call → Bool
  | .install copy => RetainStore.hasRoom limits s copy.topic copy.content.payload.length
  | _ => true

variable {limits : RetainConfig} {s : RetainStore}

/-- Every call takes an exact store to an exact one and moves the totals by its deltas. -/
theorem moved (h : s.Exact) (c : Call) :
    RetainStore.Moved s (c.run limits s).1 (c.run limits s).2.1 (c.run limits s).2.2 := by
  cases c with
  | store packet sender address now => exact h.store
  | install copy => exact h.install copy
  | remove topic => exact h.erased (erased_remove s topic)
  | retrieve order filter limit now =>
    exact h.erased (erased_retrieve s order filter limit now)
  | purge topics now => exact h.erased (erased_purgeLoop now topics (.refl s))
  | reclaimExpired now => exact h.erased (erased_reclaimExpired now h.indexed)

theorem within (h : s.Within limits) (hexact : s.Exact) {c : Call}
    (hroom : c.hasRoom limits s) : (c.run limits s).1.Within limits := by
  cases c with
  | store packet sender address now => exact h.store hexact
  | install copy => exact h.install hexact hroom
  | remove topic => exact h.erased (RetainStore.erased_remove s topic)
  | retrieve order filter limit now =>
    exact h.erased (erased_retrieve s order filter limit now)
  | purge topics now => exact h.erased (erased_purgeLoop now topics (.refl s))
  | reclaimExpired now => exact h.erased (erased_reclaimExpired now hexact.indexed)

end Call

structure World where
  store : RetainStore := .empty
  messages : Int := 0
  bytes : Int := 0

namespace World

def step (limits : RetainConfig) (w : World) (c : Call) : Option World :=
  let r := c.run limits w.store
  some { store := r.1, messages := w.messages + r.2.1, bytes := w.bytes + r.2.2 }

def Roomy (limits : RetainConfig) (w : World) (c : Call) : Prop := c.hasRoom limits w.store

instance (limits : RetainConfig) (w : World) (c : Call) : Decidable (Roomy limits w c) :=
  inferInstanceAs (Decidable (_ = true))

structure Balanced (w : World) : Prop where
  kept : w.store.Exact
  messages : w.messages = w.store.messageCount
  bytes : w.bytes = w.store.totalBytes

variable {limits : RetainConfig} {w w' : World} {c : Call}

theorem balanced_step (h : w.Balanced) (hstep : w.step limits c = some w') : w'.Balanced := by
  have hmoved : RetainStore.Moved w.store (c.run limits w.store).1 (c.run limits w.store).2.1
      (c.run limits w.store).2.2 := Call.moved h.kept c
  cases hstep
  refine ⟨hmoved.kept, ?_, ?_⟩
  · show w.messages + _ = _
    rw [hmoved.messages, h.messages]
  · show w.bytes + _ = _
    rw [hmoved.bytes, h.bytes]

theorem balanced {ok : World → Call → Prop} (h : Reach (step limits) ok (· = {}) w) :
    w.Balanced := by
  refine h.invariant ?_ ?_
  · rintro w rfl
    exact ⟨exact_empty, rfl, rfl⟩
  · intro w c w' hw _ hstep
    exact balanced_step hw hstep

theorem within (h : Reach (step limits) (Roomy limits) (· = {}) w) : w.store.Within limits := by
  induction h with
  | start hs =>
    subst hs
    refine ⟨Nat.zero_le _, Nat.zero_le _, ?_⟩
    intro path m hfind
    rw [empty, Trie.find_empty] at hfind
    cases hfind
  | step hreach hroom hstep ih =>
    cases hstep
    exact Call.within ih (balanced hreach).kept hroom

/-- In every state of every run, the count and the byte total are those of the messages in the
trie, the index holds the messages that expire, every node but the root holds a message or has
a child, the deltas add up to the totals, and a rejected write leaves every message that has
not expired. The limits hold when every `install` finds room. -/
theorem books_exact {limits w} (h : Reach (step limits) (fun _ _ => True) (· = {}) w) :
    w.store.messageCount = w.store.root.entries.length ∧
    w.store.totalBytes = (w.store.root.entries.map (·.2.content.payload.length)).sum ∧
    (∀ expires topic, (expires, topic) ∈ w.store.expiry ↔
      ∃ m, (topicLevels topic, m) ∈ w.store.root.entries ∧ m.expiresAt = some expires) ∧
    w.store.root.Tidy ∧
    w.messages = w.store.messageCount ∧ w.bytes = w.store.totalBytes ∧
    (∀ packet sender address now reason,
      (w.store.store packet sender limits address now).1.kind = .rejected reason →
      ∀ topic, (∀ m, w.store.slot topic = some m → reached m.expiresAt now = false) →
        (w.store.store packet sender limits address now).2.slot topic = w.store.slot topic) ∧
    (Reach (step limits) (Roomy limits) (· = {}) w → w.store.Within limits) := by
  have hw := balanced h
  have htidy := hw.kept.formed.tidy
  refine ⟨?_, ?_, ?_, htidy, hw.messages, hw.bytes, ?_, within⟩
  · rw [hw.kept.count, Trie.total, List.map_const', List.sum_replicate_nat, Nat.mul_one]
  · rw [hw.kept.bytes, Trie.total]
    refine congrArg List.sum (List.map_congr_left ?_)
    rintro ⟨path, m⟩ hentry
    exact hw.kept.sized ((Trie.mem_entries htidy).1 hentry)
  · intro expires topic
    rw [hw.kept.indexed expires topic]
    simp only [Trie.mem_entries htidy]
    rfl
  · intro packet sender address now reason hkind topic hlive
    exact slot_of_rejected hw.kept.indexed hkind hlive

def narrowLimits : RetainConfig := ⟨2, 4, 4⟩

def message (topic payload : Str) (expiry : Option Nat) : RetainPacket where
  topicName := topic
  payload := payload
  qos := 0
  messageExpiryInterval := expiry
  properties := {}

def fullRun : List Call :=
  [.store (message [0x61] [1, 2] none) [] 1 0, .store (message [0x63] [3, 4, 5] none) [] 2 0,
    .store (message [0x62] [6] (some 5)) [] 3 0]

def fullWorld : World := (runOk (step narrowLimits) (Roomy narrowLimits) {} fullRun).getD {}

theorem reach_fullWorld :
    Reach (step narrowLimits) (Roomy narrowLimits) (· = ({} : World)) fullWorld := by
  have hstart : Reach (step narrowLimits) (Roomy narrowLimits) (· = ({} : World)) {} := .start rfl
  have hrun : (runOk (step narrowLimits) (Roomy narrowLimits) {} fullRun).isSome = true := by
    decide +kernel
  exact reach_runOk_getD {} hstart hrun

theorem books_exact_full : fullWorld.store.messageCount = 2 ∧
    fullWorld.store.messageCount = fullWorld.store.root.entries.length ∧
    fullWorld.store.root.Tidy ∧ fullWorld.store.Within narrowLimits := by
  obtain ⟨hcount, -, -, htidy, -, -, -, hlimits⟩ :=
    books_exact (reach_fullWorld.mono fun _ _ _ => trivial)
  have htwo : fullWorld.store.messageCount = 2 := by decide +kernel
  exact ⟨htwo, hcount, htidy, hlimits reach_fullWorld⟩

def restoreRun : List Call :=
  [.store (message [0x61] [1, 2, 3, 4] none) [] 1 0, .store (message [0x61] [5] none) [] 2 0,
    .store (message [0x62] [6, 7, 8] none) [] 3 0,
    .install ⟨[0x61], contentOf (message [0x61] [1, 2, 3, 4] none) [] 1, none⟩]

theorem limits_exceeded : ∃ w, Reach (step narrowLimits) (fun _ _ => True) (· = {}) w ∧
    narrowLimits.maxTotalBytes < w.store.totalBytes := by
  have hrun : (runOk (step narrowLimits) (fun _ _ => True) {} restoreRun).map
      (·.store.totalBytes) = some 7 := by decide +kernel
  obtain ⟨w, hw, hbytes⟩ := Option.map_eq_some_iff.1 hrun
  refine ⟨w, reach_runOk (.start rfl) hw, ?_⟩
  rw [hbytes]
  decide

/-- What `match` returns in a state that calls lead to: of the messages that the filter matches
and that have not expired, those of the smallest topics, in the order of the topics. -/
theorem match_smallest {limits : RetainConfig} {w : World}
    (h : Reach (step limits) (fun _ _ => True) (· = {}) w) (order : VisitOrder) {filter : Str}
    (hne : filter ≠ []) (hfilter : hashLast (topicLevels filter)) (limit : Nat) (now : Int) :
    ∃ all : List RetainedCopy, all.Pairwise (fun a b => a.topic < b.topic) ∧
      (∀ c, c ∈ all ↔ w.store.Retained filter now c) ∧
      (w.store.retrieve order filter limit now).1.messages = all.take limit ∧
      ((w.store.retrieve order filter limit now).1.truncated ↔ limit < all.length) :=
  (balanced h).kept.formed.retrieve order limit now hne hfilter

theorem match_smallest_full : ∃ all : List RetainedCopy,
    all.Pairwise (fun a b => a.topic < b.topic) ∧
    (∀ c, c ∈ all ↔ fullWorld.store.Retained hashLevel 1 c) ∧
    (fullWorld.store.retrieve .listed hashLevel 1 1).1.messages = all.take 1 ∧
    ((fullWorld.store.retrieve .listed hashLevel 1 1).1.truncated ↔ 1 < all.length) :=
  match_smallest (reach_fullWorld.mono fun _ _ _ => trivial) .listed (by decide) (by decide) 1 1

end World

end Mqtts.Retain

import Mqtts.Session.Forward

/-!
# One path for every client

No client gets a publication twice from one call of `forward_publish_by_topic`. The plan has one
delivery for a client, and the loop over it leaves out the names that the durable store has answered
with, those that it passed over for their backlog included.
-/

namespace Mqtts.Session

open List Std Maps Durable Forward Nat PublishResult

/-! ## Sorted names -/

def Sorted (names : List Str) : Prop := names.Pairwise fun a b => compare a b ≠ .gt

theorem sorted_mergeSort (names : List Str) :
    Sorted (names.mergeSort fun a b => compare a b != .gt) := by
  have h : (names.mergeSort fun a b => compare a b != .gt).Pairwise
      (fun a b => (compare a b != .gt)) := by
    refine pairwise_mergeSort (fun a b c hab hbc => ?_) (fun a b => ?_) names
    · simp only [bne_iff_ne, ne_eq, Ordering.ne_gt_iff_isLE] at *
      exact TransCmp.isLE_trans hab hbc
    · simp only [Bool.or_eq_true, bne_iff_ne, ne_eq]
      by_cases hab : compare a b = .gt
      · exact .inr (by simp [OrientedCmp.lt_of_gt hab])
      · exact .inl hab
  exact h.imp fun hab => bne_iff_ne.1 hab

/-- The search finds the names because they are sorted. -/
theorem binarySearch_of_mem {name} : ∀ {names}, Sorted names → name ∈ names →
    binarySearch names name
  | n :: rest, hs, hmem => by
    obtain ⟨hn, hrest⟩ := pairwise_cons.1 hs
    rw [binarySearch, dropWhile_cons]
    by_cases hlt : compare n name = .lt
    · have hne : n ≠ name := by
        rintro rfl
        simp at hlt
      have hin : name ∈ rest := by simpa [Ne.symm hne] using hmem
      simp only [hlt, beq_self_eq_true, if_true]
      exact binarySearch_of_mem hrest hin
    · -- Nothing from here on is before the name, so the name itself is here.
      have hnot : compare name n ≠ .lt := by
        rcases mem_cons.1 hmem with rfl | hin
        · simp
        · intro h
          exact hn name hin (OrientedCmp.gt_of_lt h)
      simpa [hlt] using hnot

/-! ## The deliveries of a publication -/

def queueOf (s : Store) (client : Str) : Option (ExtTreeMap Nat DeliveryState) :=
  (s.sessions[client]?).map (·.pending)

theorem pendingOf_eq (s : Store) (client : Str) :
    pendingOf s client = (queueOf s client).elim [] (·.keys) := by
  rw [pendingOf, queueOf]
  cases s.sessions[client]? <;> rfl

/-- Every durable queue stays as it is, or one of `clients` gets the delivery `id`. -/
def Attached (id : Nat) (clients : List Str) (s s' : Store) : Prop :=
  ∀ c, queueOf s' c = queueOf s c ∨
    c ∈ clients ∧ ∃ d, queueOf s' c = (queueOf s c).map (·.insert id d)

variable {s s' : Store} {id : Nat} {clients : List Str} {c : Str}

theorem Attached.of_queues (h : ∀ c, queueOf s' c = queueOf s c) (id : Nat) (clients : List Str) :
    Attached id clients s s' := fun c => .inl (h c)

theorem Attached.trans {s₁ s₂ s₃} (h : Attached id clients s₁ s₂)
    (h' : Attached id clients s₂ s₃) : Attached id clients s₁ s₃ := by
  intro c
  rcases h c with h | ⟨hc, d, h⟩ <;> rcases h' c with h' | ⟨hc', d', h'⟩
  · exact .inl (h'.trans h)
  · exact .inr ⟨hc', d', by rw [h', h]⟩
  · exact .inr ⟨hc, d, by rw [h', h]⟩
  · refine .inr ⟨hc, d', ?_⟩
    rw [h', h, Option.map_map]
    exact congrArg (Option.map · _) (funext fun p => insert_insert p id d d')

theorem attached_attach (hc : c ∈ clients) (id r packet : Nat) :
    Attached id clients s (s.attach c id r packet) := by
  intro c'
  rw [Store.attach]
  cases ht : s.sessions[c]? with
  | none => exact .inl rfl
  | some t =>
    by_cases hcc : c = c'
    · subst hcc
      by_cases hid : t.pending.contains id
      · left
        simp [queueOf, ht, hid]
      · right
        refine ⟨hc, { message := r, packet := packet }, ?_⟩
        simp [queueOf, ht, hid]
    · left
      simp [queueOf, hcc]

theorem attached_foldl {α : Type} {f : Store → α → Store} :
    ∀ {as : List α} {s}, (∀ a ∈ as, ∀ s, Attached id clients s (f s a)) →
      Attached id clients s (as.foldl f s)
  | [], _, _ => .of_queues (fun _ => rfl) id clients
  | a :: _, s, h => (h a mem_cons_self s).trans
      (attached_foldl fun b hb => h b (mem_cons_of_mem _ hb))

theorem queueOf_modify_busy (s : Store) (ref : SessionRef) (busy : Bool) (c : Str) :
    queueOf (s.modify ref fun t => { t with busy := busy }) c = queueOf s c := by
  rw [Store.modify]
  cases hf : s.find ref with
  | none => rfl
  | some t =>
    have hget := (Store.find_eq_some.1 hf).1
    by_cases hc : ref.client = c
    · subst hc
      simp [queueOf, Store.put, hget]
    · simp [queueOf, Store.put, hc]

/-- What a result of `publish` says about the durable queues. -/
def PublishResult.Fits (s s' : Store) : PublishResult → Prop
  | .accepted reply _ => Sorted reply.targets ∧ ∃ id, Attached id reply.targets s s'
  | _ => ∀ c, queueOf s' c = queueOf s c

theorem fits_admission {cfg append s₀ size a}
    (h : s₀.admission cfg append size = some a) (hq : ∀ c, queueOf s₀ c = queueOf s c) :
    (ofAnswer a).Fits s s₀ := by
  unfold Store.admission at h
  split_ifs at h
  · cases h
    exact hq
  · cases h
    exact hq
  · cases append with
    | taken => cases h
    | full | unavailable =>
      cases h
      exact hq

theorem publishAdmit_attached (cfg : Config) (append : Append) (s : Store) (topic wire : Str)
    (expires : Int) (active overflows : List Session) (skipped : Nat) {reply : Reply}
    (hs : Sorted reply.targets) (hactive : ∀ t ∈ active, t.client ∈ reply.targets) : (ofAnswer
      (s.publishAdmit cfg append topic wire expires active overflows skipped reply).1).Fits s
      (s.publishAdmit cfg append topic wire expires active overflows skipped reply).2 := by
  rw [Store.publishAdmit]
  rw [Store.enqueue]
  split
  · next a ha => exact fits_admission ha fun _ => rfl
  · refine ⟨hs, s.nextId + 1, ?_⟩
    refine Attached.trans ?_ (attached_foldl fun e he s => ?_)
    · refine Attached.trans (.of_queues (fun _ => rfl) _ _) (attached_foldl fun t _ s => ?_)
      exact .of_queues (queueOf_modify_busy s t.ref true) _ _
    · obtain ⟨t, ht, rfl⟩ := mem_map.1 he
      exact attached_attach (hactive t ht) _ _ _

/-- The durable store answers with the sorted names of all sessions it selected, and attaches one
delivery to some of them. -/
theorem publish_attached (cfg : Config) (now : Int) (append : Append) (s : Store)
    (topic wire sender : Str) (expires : Int) (implicitNoLocal : Bool) : (ofAnswer
      (s.publish cfg now append topic wire sender expires implicitNoLocal).1).Fits s
      (s.publish cfg now append topic wire sender expires implicitNoLocal).2 := by
  have hnothing : (ofAnswer (.replied success)).Fits s s :=
    ⟨List.Pairwise.nil, 0, .of_queues (fun _ => rfl) _ _⟩
  have hsame : ∀ c, queueOf s c = queueOf s c := fun _ => rfl
  rw [Store.publish, Store.guarded]
  split
  · exact hsame
  split
  · exact hsame
  split
  · exact hnothing
  cases s.selectTargets now topic sender implicitNoLocal with
  | none => exact hsame
  | some targets =>
    dsimp only
    split
    · exact hnothing
    cases hdiv : Store.partitionTargets cfg wire.length targets with
    | error e => exact hsame
    | ok divided =>
      obtain ⟨active, overflows⟩ := divided
      have hd := Store.partitionTargets_divided hdiv
      have hsorted := sorted_mergeSort (targets.map (·.client))
      dsimp only
      split
      · exact ⟨hsorted, 0, .of_queues (fun _ => rfl) _ _⟩
      cases s.checkMetadata cfg 0 (s.pending + active.length)
          (if active = [] then 0 else wire.length) with
      | some limit => exact hsame
      | none =>
        split_ifs with hcap
        · exact hsame
        refine publishAdmit_attached cfg append s topic wire expires active overflows _
          hsorted fun t ht => ?_
        rw [mem_mergeSort]
        obtain ⟨left, hperm, hsub⟩ := hd.perm
        exact mem_map_of_mem (hsub.subset (hperm.mem_iff.1 (mem_append_left _ ht)))

theorem newDeliveries_of_queue (h : queueOf s' c = queueOf s c) : newDeliveries s s' c = 0 := by
  rw [newDeliveries, pendingOf_eq s', h, ← pendingOf_eq, length_eq_zero_iff, filter_eq_nil_iff]
  intro id hid
  simpa using hid

theorem newDeliveries_insert_le {d}
    (h : queueOf s' c = (queueOf s c).map (·.insert id d)) : newDeliveries s s' c ≤ 1 := by
  rw [newDeliveries, pendingOf_eq, pendingOf_eq, h]
  cases queueOf s c with
  | none => simp
  | some p =>
    simp only [Option.map_some, Option.elim_some]
    have hall : ∀ i ∈ (p.insert id d).keys.filter fun i => !p.keys.contains i, i = id := by
      intro i hi
      obtain ⟨hi, hnew⟩ := mem_filter.1 hi
      rw [ExtTreeMap.mem_keys, ExtTreeMap.mem_insert] at hi
      rcases hi with hi | hi
      · exact (LawfulEqOrd.eq_of_compare hi).symm
      · exact absurd hi (by simpa using hnew)
    have hnodup : ((p.insert id d).keys.filter fun i => !p.keys.contains i).Nodup :=
      ExtTreeMap.nodup_keys.filter _
    rw [eq_replicate_of_mem hall] at hnodup
    exact nodup_replicate.1 hnodup

theorem Attached.newDeliveries_le (h : Attached id clients s s') (c : Str) :
    newDeliveries s s' c ≤ 1 ∧ (newDeliveries s s' c ≠ 0 → c ∈ clients) := by
  rcases h c with h | ⟨hc, d, h⟩
  · rw [newDeliveries_of_queue h]
    exact ⟨zero_le _, fun h => absurd rfl h⟩
  · exact ⟨newDeliveries_insert_le h, fun _ => hc⟩

/-! ## The queues of the managers -/

theorem queued_enqueue {m m' : Manager} {message}
    (h : m.enqueueSharedMessage message = some m') (c : Str) :
    m'.queued c = m.queued c + if message.target = c then 1 else 0 := by
  rw [Manager.enqueueSharedMessage] at h
  split_ifs at h
  cases h
  simp only [Manager.queued, countP_append, countP_singleton, beq_iff_eq]
  omega

theorem queued_forward_le (w : World) (message : LiveMessage) (c : Str) :
    (w.forwardPublishShared message).2.queued c ≤
      w.queued c + if message.target = c then 1 else 0 := by
  rw [World.forwardPublishShared]
  cases w.clientToManager[message.target]? with
  | none => exact le_add_right _ _
  | some id =>
    dsimp only
    cases hm : ((w.managers[id]?).getD {}).enqueueSharedMessage message with
    | none => exact le_add_right _ _
    | some m =>
      have hsum := mapSum_insert (fun _ m => Manager.queued c m) w.managers id m
      have hone := queued_enqueue hm c
      have hold : (w.managers[id]?).elim 0 (fun m => Manager.queued c m) =
          ((w.managers[id]?).getD {}).queued c := by
        cases w.managers[id]? <;> rfl
      simp only [World.queued]
      omega

theorem store_forward (w : World) (message : LiveMessage) :
    (w.forwardPublishShared message).2.store = w.store := by
  rw [World.forwardPublishShared]
  split
  · rfl
  · split <;> rfl

/-! ## The invariant -/

structure Stored (targets : List Str) (durable : Str → Nat) : Prop where
  sorted : Sorted targets
  once : ∀ c, durable c ≤ 1
  mem : ∀ c, durable c ≠ 0 → c ∈ targets

structure Before (f : Forward) (durable live : Str → Nat) : Prop where
  stored : Stored f.persistedTargets durable
  unpublished : f.publishDone = none → ∀ c, durable c = 0
  quiet : ∀ c, live c = 0

structure Sending (f : Forward) (rest : List PlannedDelivery) (durable live : Str → Nat) :
    Prop where
  stored : Stored f.persistedTargets durable
  nodup : (rest.map (·.clientId)).Nodup
  once : ∀ c, live c ≤ 1
  apart : ∀ c, live c ≠ 0 → c ∉ f.persistedTargets ∧ c ∉ rest.map (·.clientId)

/-- The invariant, stage by stage. -/
def Holds (f : Forward) (durable live : Str → Nat) : Prop :=
  match f.stage with
  | .looking | .publishing | .submitting .. => Before f durable live ∧ f.publishDone = none
  | .committing reply => Stored reply.targets durable ∧ ∀ c, live c = 0
  | .top | .locked | .awaiting => Before f durable live
  | .sending rest _ => Sending f rest durable live
  | .returned _ => ∀ c, durable c + live c ≤ 1

section Steps

variable {cfg : Settings} {p : Accepted} {f : Forward} {durable live : Str → Nat} {m : Moment}

theorem Stored.none : Stored [] (fun _ => 0) :=
  ⟨List.Pairwise.nil, fun _ => zero_le _, fun _ h => absurd rfl h⟩

variable {targets : List Str} {w : World}

theorem Stored.total_le (h : Stored targets durable) (hq : ∀ c, live c = 0) (c : Str) :
    durable c + live c ≤ 1 := by
  have := h.once c
  have := hq c
  omega

theorem Sending.total_le {rest} (h : Sending f rest durable live) (c : Str) :
    durable c + live c ≤ 1 := by
  by_cases hc : live c = 0
  · rw [hc]
    exact h.stored.once c
  · have hzero : durable c = 0 := by
      by_contra hne
      exact (h.apart c hc).1 (h.stored.mem c hne)
    rw [hzero, zero_add]
    exact h.once c

theorem holds_finish (h : Stored targets durable) (hq : ∀ c, live c = 0)
    (result : Except ForwardError Nat) : Holds (f.finish result) durable live :=
  h.total_le hq

theorem holds_settle (h : Stored f.persistedTargets durable) (hq : ∀ c, live c = 0) :
    Holds (f.settle p) durable live := by
  rw [settle]
  split_ifs
  · exact holds_finish h hq _
  · exact holds_finish h hq _
  · exact ⟨h, f.planned.nodup, fun c => by simp [hq c], fun c hc => absurd (hq c) hc⟩

theorem before_search (cfg : Settings) (p : Accepted) (m : Moment) (h : Before f durable live) :
    Before (f.search cfg p m) durable live := by
  rw [search]
  split <;> exact ⟨h.stored, h.unpublished, h.quiet⟩

theorem before_fillLookup (cfg : Settings) (p : Accepted) (m : Moment) (h : Before f durable live) :
    Before (f.fillLookup cfg p m) durable live := by
  rw [fillLookup]
  split_ifs
  · exact h
  · have := before_search cfg p m h
    exact ⟨this.stored, this.unpublished, this.quiet⟩

theorem holds_putRetained (h : Before f durable live) :
    Holds (f.putRetained cfg m) durable live := by
  rw [putRetained]
  split_ifs
  · cases m.put with
    | deferred | accepted => exact ⟨h.stored, h.unpublished, h.quiet⟩
    | refused quota => exact holds_finish h.stored h.quiet _
  · exact ⟨h.stored, h.unpublished, h.quiet⟩

theorem holds_storeRetained (h : Before f durable live) :
    Holds (f.storeRetained cfg p m) durable live := by
  rw [storeRetained]
  split_ifs
  · exact holds_putRetained h
  · have := before_fillLookup cfg p m h
    exact ⟨this.stored, this.unpublished, this.quiet⟩
  · exact holds_putRetained (before_fillLookup cfg p m ⟨h.stored, h.unpublished, h.quiet⟩)

def Moves (m : Moment) (r : Forward × World) (durable live : Str → Nat) : Prop :=
  Holds r.1 (fun c => durable c + newDeliveries m.world.store r.2.store c)
    (fun c => live c + (r.2.queued c - m.world.queued c))

theorem moves_of_queues (hq : ∀ c, queueOf w.store c = queueOf m.world.store c)
    (hm : w.managers = m.world.managers) (h : Holds f durable live) :
    Moves m (f, w) durable live := by
  have hdurable : (fun c => durable c + newDeliveries m.world.store w.store c) = durable :=
    funext fun c => by rw [newDeliveries_of_queue (hq c), add_zero]
  have hlive : (fun c => live c + (w.queued c - m.world.queued c)) = live :=
    funext fun c => by rw [World.queued, World.queued, hm, Nat.sub_self, Nat.add_zero]
  rw [Moves]
  rwa [hdurable, hlive]

theorem moves_same (h : Holds f durable live) : Moves m (f, m.world) durable live :=
  moves_of_queues (fun _ => rfl) rfl h

theorem moves_attached {id} (hsorted : Sorted targets)
    (ha : Attached id targets m.world.store w.store) (hm : w.managers = m.world.managers)
    (hnew : ∀ c, durable c = 0) (h : ∀ durable', Stored targets durable' → Holds f durable' live) :
    Moves m (f, w) durable live := by
  have hlive : (fun c => live c + (w.queued c - m.world.queued c)) = live :=
    funext fun c => by rw [World.queued, World.queued, hm, Nat.sub_self, Nat.add_zero]
  rw [Moves]
  rw [hlive]
  refine h _ ⟨hsorted, fun c => ?_, fun c hc => ?_⟩
  · rw [hnew c, zero_add]
    exact (ha.newDeliveries_le c).1
  · rw [hnew c, zero_add] at hc
    exact (ha.newDeliveries_le c).2 hc

theorem publish_fits (m : Moment) (store : Config) (p : Accepted) (implicitNoLocal : Bool)
    (wire : Str) (expires : Int) {r} (h : m.publish store p implicitNoLocal wire expires = (r, w)) :
    r.Fits m.world.store w.store ∧ w.managers = m.world.managers := by
  rw [Moment.publish] at h
  split_ifs at h <;> cases h
  · exact ⟨fun _ => rfl, rfl⟩
  · exact ⟨publish_attached .., rfl⟩

theorem moves_underLock (h : Before f durable live) :
    Moves m (f.underLock cfg p m) durable live := by
  rw [underLock]
  cases cfg.durable with
  | none => exact moves_same (holds_storeRetained h)
  | some store =>
    split_ifs with hnow
    · have hfree : ∀ c, durable c = 0 := by
        simp only [Bool.and_eq_true, Option.isNone_iff_eq_none] at hnow
        exact h.unpublished hnow.1.2
      cases f.wire with
      | none => exact moves_same ⟨h.stored, h.unpublished, h.quiet⟩
      | some e =>
        obtain ⟨wire, expires⟩ := e
        have hf := before_fillLookup cfg p m h
        dsimp only
        cases hr : m.publish store p cfg.implicitNoLocal wire expires with
        | mk r w =>
          obtain ⟨hfits, hm⟩ := publish_fits _ _ _ _ _ _ hr
          cases r with
          | deferred => exact moves_of_queues hfits hm ⟨hf.stored, hf.unpublished, hf.quiet⟩
          | refused quota => exact moves_of_queues hfits hm (holds_finish hf.stored hf.quiet _)
          | accepted reply commit =>
            obtain ⟨hsorted, id, ha⟩ := hfits
            refine moves_attached hsorted ha hm hfree fun durable' hd => ?_
            exact holds_storeRetained ⟨hd, fun hnone => (nomatch hnone), hf.quiet⟩
    · exact moves_same (holds_storeRetained h)

theorem moves_submit (h : Before f durable live) (hnone : f.publishDone = none) {wire expires}
    (hs : f.stage = .submitting wire expires) :
    Moves m (f.submit cfg p m wire expires) durable live := by
  rw [submit]
  cases cfg.durable with
  | none => exact moves_same (holds_settle h.stored h.quiet)
  | some store =>
    dsimp only
    cases hr : m.publish store p cfg.implicitNoLocal wire expires with
    | mk r w =>
      obtain ⟨hfits, hm⟩ := publish_fits _ _ _ _ _ _ hr
      cases r with
      | deferred =>
        dsimp only
        split_ifs
        · exact moves_of_queues hfits hm (holds_finish h.stored h.quiet _)
        · refine moves_of_queues hfits hm ?_
          rw [Holds, hs]
          exact ⟨h, hnone⟩
      | refused quota => exact moves_of_queues hfits hm (holds_finish h.stored h.quiet _)
      | accepted reply commit =>
        obtain ⟨hsorted, id, ha⟩ := hfits
        dsimp only
        split_ifs
        · exact moves_attached hsorted ha hm (h.unpublished hnone)
            (fun durable' hd => ⟨hd, h.quiet⟩)
        · exact moves_attached hsorted ha hm (h.unpublished hnone)
            (fun durable' hd => holds_settle hd h.quiet)

/-- A round of the loop over the plan: a name of the answer is passed over, another client
gets its one delivery. -/
theorem moves_send {d rest forwarded} (h : Sending f (d :: rest) durable live) :
    Moves m (f.send p m d rest forwarded) durable live := by
  have hnodup := h.nodup
  rw [map_cons, nodup_cons] at hnodup
  have hrest : ∀ c, live c ≠ 0 → c ∉ f.persistedTargets ∧ c ∉ rest.map (·.clientId) := by
    intro c hc
    obtain ⟨hp, hr⟩ := h.apart c hc
    exact ⟨hp, fun hin => hr (mem_cons_of_mem _ hin)⟩
  rw [send]
  split_ifs with hfound
  · exact moves_same ⟨h.stored, hnodup.2, h.once, hrest⟩
  have hout : d.clientId ∉ f.persistedTargets := fun hin =>
    hfound (binarySearch_of_mem h.stored.sorted hin)
  have hfirst : live d.clientId = 0 := by
    by_contra hne
    exact (h.apart d.clientId hne).2 mem_cons_self
  have hdurable : (fun c => durable c + newDeliveries m.world.store
      (m.world.forwardPublishShared (shape p d)).2.store c) = durable := by
    funext c
    rw [store_forward, newDeliveries_of_queue rfl, add_zero]
  have hadd : ∀ c, (m.world.forwardPublishShared (shape p d)).2.queued c -
      m.world.queued c ≤ if d.clientId = c then 1 else 0 := fun c => by
    have : _ ≤ m.world.queued c + if d.clientId = c then 1 else 0 :=
      queued_forward_le m.world (shape p d) c
    omega
  rw [Moves]
  dsimp only
  rw [hdurable]
  refine ⟨h.stored, hnodup.2, fun c => ?_, fun c hc => ?_⟩
  · have hc := hadd c
    split_ifs at hc with heq
    · rw [← heq, hfirst] at *
      omega
    · have := h.once c
      omega
  · have hone := hadd c
    split_ifs at hone with heq
    · rw [← heq]
      exact ⟨hout, hnodup.1⟩
    · exact hrest c (by omega)

theorem moves_step (h : Holds f durable live) : Moves m (f.step cfg p m) durable live := by
  unfold step
  cases hs : f.stage <;> rw [Holds, hs] at h
  case looking =>
    have hb := before_search cfg p m h.1
    refine moves_same ⟨⟨hb.stored, hb.unpublished, hb.quiet⟩, ?_⟩
    show (f.search cfg p m).publishDone = none
    rw [search]
    split <;> exact h.2
  case publishing =>
    refine moves_same ?_
    rw [prepare]
    split_ifs
    · cases m.wire with
      | none => exact holds_finish h.1.stored h.1.quiet _
      | some wire => exact ⟨⟨h.1.stored, h.1.unpublished, h.1.quiet⟩, h.2⟩
    · exact holds_settle h.1.stored h.1.quiet
  case submitting wire expires =>
    exact moves_submit h.1 h.2 hs
  case committing reply =>
    refine moves_same ?_
    rw [commit]
    split_ifs
    · exact holds_settle h.1 h.2
    · exact holds_finish h.1 h.2 _
  case top =>
    refine moves_same ?_
    rw [serialize]
    split_ifs
    · cases m.wire with
      | none => exact holds_finish h.stored h.quiet _
      | some wire => exact ⟨h.stored, h.unpublished, h.quiet⟩
    · exact ⟨h.stored, h.unpublished, h.quiet⟩
  case locked =>
    exact moves_underLock h
  case awaiting =>
    refine moves_same ?_
    rw [await]
    split_ifs
    · exact holds_finish h.stored h.quiet _
    · exact holds_finish h.stored h.quiet _
    · exact holds_settle h.stored h.quiet
  case sending rest forwarded =>
    cases rest with
    | nil => exact moves_same h.total_le
    | cons d rest => exact moves_send h
  case returned result => exact moves_same (by rwa [Holds, hs])

theorem holds_start (cfg : Settings) (p : Accepted) :
    Holds (.start cfg p) (fun _ => 0) (fun _ => 0) := by
  have hb : Before (.start cfg p) (fun _ => 0) (fun _ => 0) :=
    ⟨Stored.none, fun _ _ => rfl, fun _ => rfl⟩
  rw [start]
  split_ifs
  · exact ⟨hb.stored, hb.unpublished, hb.quiet⟩
  · exact ⟨⟨hb.stored, hb.unpublished, hb.quiet⟩, rfl⟩

theorem Holds.total_le (h : Holds f durable live) (c : Str) : durable c + live c ≤ 1 := by
  unfold Holds at h
  split at h
  · exact h.1.stored.total_le h.1.quiet c
  · exact h.1.stored.total_le h.1.quiet c
  · exact h.1.stored.total_le h.1.quiet c
  · exact h.1.total_le h.2 c
  · exact h.stored.total_le h.quiet c
  · exact h.stored.total_le h.quiet c
  · exact h.stored.total_le h.quiet c
  · exact Sending.total_le h c
  · exact h c

end Steps

theorem holds_run (cfg : Settings) (p : Accepted) : ∀ (moments : List Moment) t,
    Holds t.forward t.durable t.live → Holds (moments.foldl (Trace.step cfg p) t).forward
        (moments.foldl (Trace.step cfg p) t).durable (moments.foldl (Trace.step cfg p) t).live
  | [], _, h => h
  | _ :: moments, _, h => holds_run cfg p moments _ (moves_step h)

/-- Whatever the stores, the tree and the handlers are at each moment of a call, a client
gets the publication at most once, in its durable queue or live. -/
theorem one_path (cfg : Settings) (r : Request) (moments : List Moment) (client : Str) :
    (forwardPublishByTopic cfg r moments).durable client +
      (forwardPublishByTopic cfg r moments).live client ≤ 1 := by
  unfold forwardPublishByTopic
  cases r.accept cfg with
  | error e => exact zero_le _
  | ok p => exact (holds_run cfg p moments _ (holds_start cfg p)).total_le client

end Mqtts.Session

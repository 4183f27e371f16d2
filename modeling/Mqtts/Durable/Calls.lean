import Mqtts.Durable.Keeps
import Mqtts.Durable.System

/-!
# How calls end

A call of the store keeps the ledger and spares the sessions that wait for records. A publication is
the call that adds deliveries: it has checked the limits for all its targets before the first
delivery is attached.
-/

namespace Mqtts.Durable

open Std (ExtTreeMap ExtTreeSet)
open List Maps Callback

def Answer.Final : Answer → Prop
  | .queued .. => False
  | _ => True

namespace Callback

def holds : Callback → List SessionRef
  | .connect client _ old object _ _ _ _ _ => [⟨client, old.getD object⟩]
  | .disconnect ref _ _ => [ref]
  | .subscribe ref _ _ _ => [ref]
  | .unsubscribe ref _ => [ref]
  | .message _ overflows _ => overflows
  | _ => []

def Fit : Callback → Prop
  | .connect _ _ old object _ _ _ _ clean =>
    (old.isSome && clean) = false → old.getD object = object
  | _ => True

structure Enters (s s' : Store) (callback : Callback) : Prop where
  free : ∀ ref ∈ callback.holds, s.Free ref.client
  holding : ∀ ref ∈ callback.holds, s'.Holding ref
  fit : callback.Fit

variable {s s' : Store} {callback : Callback}

theorem enters_free (hholds : callback.holds = []) (hfit : callback.Fit) :
    callback.Enters s s' := by
  refine ⟨?_, ?_, hfit⟩ <;> rw [hholds]
  · exact fun ref href => absurd href not_mem_nil
  · exact fun ref href => absurd href not_mem_nil

theorem enters_one {ref} (hholds : callback.holds = [ref]) (hfit : callback.Fit)
    (hfree : s.Free ref.client) (hholding : s'.Holding ref) : callback.Enters s s' := by
  refine ⟨?_, ?_, hfit⟩ <;> rw [hholds]
  · exact fun ref href => mem_singleton.1 href ▸ hfree
  · exact fun ref href => mem_singleton.1 href ▸ hholding

end Callback

namespace Store

/-- When the record of a call goes to a log, the sessions that it holds were free before and wait
now. -/
structure Ends (cfg : Config) (s : Store) (r : Answer × Store) : Prop where
  keeps : Keeps cfg [] s r.2
  enters : ∀ {log job}, r.1 = .queued log job → job.callback.Enters s r.2

variable {cfg : Config} {now : Int} {append : Append} {s s' : Store}
  {a : Answer} {client c owner sender : Str} {t : Session} {size expiry : Nat} {s₁ : Store}
  {clean : Bool} {targets : List Session}

theorem Ends.final (ha : a.Final) (h : Keeps cfg [] s s') : Ends cfg s (a, s') :=
  ⟨h, fun heq => by
    subst heq
    exact ha.elim⟩

theorem Ends.refused (ha : a.Final) : Ends cfg s (a, s) := .final ha (.refl s)

theorem Ends.ite {c} [Decidable c] {r} (ha : a.Final)
    (h : ¬ c → Ends cfg s r) : Ends cfg s (if c then (a, s) else r) := by
  split
  · exact .refused ha
  · next hc => exact h hc

theorem Ends.guarded {op} (h : Ends cfg s op) : Ends cfg s (s.guarded op) :=
  .ite trivial fun _ => .ite trivial fun _ => h

theorem current_found {epoch} (h : s.current client epoch = .found t) :
    s.sessions[client]? = some t ∧ t.busy = false := by
  rw [current] at h
  split at h
  · cases h
  split at h
  · cases h
  split at h
  · cases h
  · next hget _ hbusy =>
      cases h
      exact ⟨hget, by simpa using hbusy⟩

theorem Ends.withCurrent {epoch} {op : Session → Answer × Store}
    (h : ∀ t, s.sessions[client]? = some t → t.busy = false → Ends cfg s (op t)) :
    Ends cfg s (s.withCurrent client epoch op) := by
  refine Ends.guarded ?_
  cases hc : s.current client epoch with
  | stale | busy => exact .refused trivial
  | found t => exact h t (current_found hc).1 (current_found hc).2

theorem admission_final (h : s.admission cfg append size = some a) : a.Final := by
  unfold admission at h
  split at h
  · cases h
    trivial
  · split at h
    · cases h
      trivial
    · cases append <;> cases h <;> trivial

theorem Ends.enqueue {log job} {install : Store → Store}
    (hfirst : Keeps cfg [] s s₁) (hkeeps : Keeps cfg [] s (install (s₁.countRequest job)))
    (henters : job.callback.Enters s (install (s₁.countRequest job))) :
    Ends cfg s (s₁.enqueue cfg append log job install) := by
  rw [Store.enqueue]
  cases h : s₁.admission cfg append job.size with
  | some a => exact .final (admission_final h) hfirst
  | none =>
    refine ⟨hkeeps, fun heq => ?_⟩
    cases heq
    exact henters

open Still

theorem Ends.hold {log : LogName} {job} {install : Store → Store} (hfirst : Keeps cfg [] s s₁)
    (hsessions : s₁.sessions = s.sessions) (ht : s.sessions[c]? = some t) (hfree : t.busy = false)
    (hholds : job.callback.holds = [⟨c, t.object⟩]) (hfit : job.callback.Fit)
    (hinstall : ∀ s₂, ∃ n, install s₂ = { s₂.setBusy c t true with metadataReserved := n }) :
    Ends cfg s (s₁.enqueue cfg append log job install) := by
  have hcfree : s.Free c := fun u hu => by
    rw [ht] at hu
    cases hu
    exact hfree
  obtain ⟨n, hn⟩ := hinstall (s₁.countRequest job)
  have hget : (s₁.countRequest job).sessions[c]? = some t := by
    rw [← ht, ← hsessions]
    rfl
  have hput : Keeps cfg [c] (s₁.countRequest job) ((s₁.countRequest job).setBusy c t true) :=
    keeps_put hget rfl rfl (.inl mem_cons_self)
  have hcount : Keeps cfg [c] s (s₁.countRequest job) :=
    hfirst.wide.trans (.of_same { refl s₁ with } rfl)
  refine .enqueue hfirst ?_ (enters_one hholds hfit hcfree ?_)
  · rw [hn]
    refine .free [c] ((hcount.trans hput).trans (.of_same { refl _ with } rfl)) ?_
    exact fun c' hc' => mem_singleton.1 hc' ▸ hcfree
  · rw [hn, Holding, setBusy, put, get_insert, if_pos rfl]
    rfl

/-! ## Connections -/

theorem account_blank {object} {busy : Bool} :
    account (some { object := object, client := client, owner := owner, busy := busy }) =
      account none :=
  Prod.ext rfl (ExtTreeMap.ext_getElem? fun id => by simp [account])

theorem Ends.connectAdmit_none (hfirst : Keeps cfg [] s s₁) (hfree : s.Free client)
    (hnone : s₁.sessions[client]? = none) :
    Ends cfg s (s₁.connectAdmit cfg now append client owner clean expiry none) := by
  have hnumber := hfirst.trans (.of_same (.numbers (Nat.le_succ _) (Nat.le_succ _)) rfl)
  unfold connectAdmit
  refine .enqueue hnumber ?_ (enters_one rfl (fun _ => rfl) hfree ?_)
  · have hcount : ∀ (s₂ : Store) (job : Job), Keeps cfg [client] s₂ (s₂.countRequest job) :=
      fun s₂ _ => .of_same { refl s₂ with } rfl
    have hjoin : ∀ (s₂ : Store) (object n : Nat), s₂.sessions = s₁.sessions → Keeps cfg [client] s₂
        { s₂.put client { object := object, client := client, owner := owner, busy := true } with
          metadataBytes := n } := fun s₂ _ _ heq =>
      (keeps_join (by rw [heq, hnone]) account_blank rfl).trans (.of_same { refl _ with } rfl)
    exact .free [client] (hnumber.wide.trans ((hcount _ _).trans (hjoin _ _ _ rfl)))
      fun c hc => mem_singleton.1 hc ▸ hfree
  · exact congrArg (Option.map grip) ((get_insert _ _ _ _).trans (if_pos rfl))

theorem Ends.connectAdmit_some (ht : s.sessions[client]? = some t) (hfree : t.busy = false)
    (owner : Str) :
    Ends cfg s (s.connectAdmit cfg now append client owner clean expiry (some t)) := by
  unfold connectAdmit
  refine .hold (.of_same (.numbers (Nat.le_succ _) ?_) rfl) rfl ht hfree rfl ?_
    fun s₂ => ⟨s₂.metadataReserved, rfl⟩
  · split
    · exact le_rfl
    · exact Nat.le_succ _
  · intro hclean
    have hc : clean = false := hclean
    subst hc
    rfl

theorem Ends.connectOwned_none (hfirst : Keeps cfg [] s s₁) (hfree : s.Free client)
    (hnone : s₁.sessions[client]? = none) :
    Ends cfg s (s₁.connectOwned cfg now append client owner clean expiry none) := by
  rw [connectOwned]
  simp only [Option.any_none, Bool.false_eq_true, if_false, Option.isSome_none]
  split
  · exact .final trivial hfirst
  split
  · exact .final trivial hfirst
  · split
    · exact .final trivial hfirst
    · exact .connectAdmit_none hfirst hfree hnone

theorem ends_connect (client owner : Str) (clean : Bool) (expiry : Nat) :
    Ends cfg s (s.connect cfg now append client owner clean expiry) := by
  rw [connect]
  refine .ite trivial fun _ => .ite trivial fun _ => .ite trivial fun _ => .ite trivial fun hbusy
    => ?_
  cases hold : s.sessions[client]? with
  | none =>
    simp only [Option.any_none, Bool.false_eq_true, if_false]
    refine .connectOwned_none (.refl s) (fun u hu => ?_) hold
    rw [hold] at hu
    cases hu
  | some t =>
    rw [hold] at hbusy
    have hfree : t.busy = false := by simpa using hbusy
    have hcfree : s.Free client := fun u hu => by
      rw [hold] at hu
      cases hu
      exact hfree
    split
    · refine .connectOwned_none (.free [client] (keeps_eraseSession client) fun c hc => ?_)
        hcfree ?_
      · exact mem_singleton.1 hc ▸ hcfree
      · rw [sessions_eraseSession, get_erase, if_pos rfl]
    · rw [connectOwned]
      exact .ite trivial fun _ => .connectAdmit_some hold hfree owner

theorem ref_of_keyed (hk : s.Keyed) (ht : s.sessions[c]? = some t) :
    t.ref = ⟨c, t.object⟩ := by rw [Session.ref, hk c t ht]

theorem ends_disconnect (hk : s.Keyed) (client : Str) (epoch : Nat) (expiryOverride : Int) :
    Ends cfg s (s.disconnect cfg now append client epoch expiryOverride) := by
  refine .withCurrent fun t ht hfree => .hold (.refl s) rfl ht hfree ?_ trivial
    fun s₂ => ⟨s₂.metadataReserved, rfl⟩
  exact congrArg (fun ref => [ref]) (ref_of_keyed hk ht)

theorem ends_subscribe (hk : s.Keyed) (client : Str) (epoch : Nat) (filter : Str)
    (sub : StoredSubscription) : Ends cfg s (s.subscribe cfg append client epoch filter sub) := by
  refine .withCurrent fun t ht hfree => ?_
  refine .ite trivial fun _ => .ite trivial fun _ => .ite trivial fun _ => ?_
  split
  · exact .refused trivial
  · refine .hold (.refl s) rfl ht hfree ?_ trivial fun s₂ => ⟨_, rfl⟩
    exact congrArg (fun ref => [ref]) (ref_of_keyed hk ht)

theorem ends_unsubscribe (hk : s.Keyed) (client : Str) (epoch : Nat) (filter : Str) :
    Ends cfg s (s.unsubscribe cfg append client epoch filter) := by
  refine .withCurrent fun t ht hfree => .hold (.refl s) rfl ht hfree ?_ trivial
    fun s₂ => ⟨s₂.metadataReserved, rfl⟩
  exact congrArg (fun ref => [ref]) (ref_of_keyed hk ht)

/-! ## Targets of a publication -/

theorem matchTopic_get (hk : s.Keyed) {topic hit}
    (h : hit ∈ s.matchTopic topic) : s.sessions[hit.1.client]? = some hit.1 := by
  obtain ⟨e, -, he⟩ := mem_filterMap.1 h
  split at he
  · cases he
  rename_i t hfind
  have hget := (find_eq_some.1 hfind).1
  split at he
  · cases he
  · split at he <;> cases he
    rw [hk _ _ hget]
    exact hget

/-- The targets of a publication are different sessions that are free. -/
structure Targets (s : Store) (targets : List Session) : Prop where
  nodup : (targets.map (·.client)).Nodup
  get : ∀ t ∈ targets, s.sessions[t.client]? = some t
  free : ∀ t ∈ targets, t.busy = false

theorem Targets.selectHit {selected selected' hit} (h : Targets s (selected.map (·.1)))
    (hhit : s.sessions[hit.1.client]? = some hit.1)
    (hstep : selectHit now sender selected hit = some selected') :
    Targets s (selected'.map (·.1)) := by
  -- whether a session gets the message is a flag beside it
  have hflag : ∀ l : List (Session × Bool), (if hit.1.client = sender ∧ hit.2.noLocal then l
      else l.map fun e => if e.1.client = hit.1.client then (e.1, true) else e).map (·.1) =
        l.map (·.1) := by
    intro l
    split
    · rfl
    rw [map_map]
    refine map_congr_left fun e _ => ?_
    simp only [Function.comp]
    split <;> rfl
  rw [Store.selectHit] at hstep
  cases hknown : selected.any (fun e => e.1.client == hit.1.client) with
  | true =>
    simp only [hknown, Bool.true_eq_false, false_and, if_false, if_true, Option.some.injEq] at hstep
    rw [← hstep, hflag]
    exact h
  | false =>
    simp only [hknown, true_and, Bool.false_eq_true, if_false] at hstep
    split at hstep
    · cases hstep
    rename_i hbusy
    split at hstep
    · cases hstep
      exact h
    · rw [Option.some.injEq] at hstep
      rw [← hstep, hflag, map_append]
      have hnew : ∀ e ∈ selected, e.1.client ≠ hit.1.client := by
        simpa [any_eq_false] using hknown
      refine ⟨?_, fun t ht => ?_, fun t ht => ?_⟩
      · rw [map_append, nodup_append]
        refine ⟨h.nodup, nodup_singleton _, fun c hc c' hc' => ?_⟩
        rw [map_map] at hc
        obtain ⟨e, he, rfl⟩ := mem_map.1 hc
        obtain rfl := mem_singleton.1 hc'
        exact hnew e he
      · rcases mem_append.1 ht with ht | ht
        · exact h.get t ht
        · obtain rfl := mem_singleton.1 ht
          exact hhit
      · rcases mem_append.1 ht with ht | ht
        · exact h.free t ht
        · obtain rfl := mem_singleton.1 ht
          simpa using hbusy

theorem Targets.sublist {targets'} (h : Targets s targets)
    (hsub : targets'.Sublist targets) : Targets s targets' :=
  ⟨(hsub.map _).nodup h.nodup, fun t ht => h.get t (hsub.subset ht),
    fun t ht => h.free t (hsub.subset ht)⟩

theorem Targets.selectHits : ∀ {hits : List (Session × StoredSubscription)} {selected selected'},
      Targets s (selected.map (·.1)) → (∀ hit ∈ hits, s.sessions[hit.1.client]? = some hit.1) →
      hits.foldlM (Store.selectHit now sender) selected = some selected' →
      Targets s (selected'.map (·.1))
  | [], _, _, h, _, hrun => by
    cases hrun
    exact h
  | hit :: hits, _, _, h, hhits, hrun => by
    rw [foldlM_cons] at hrun
    obtain ⟨mid, hmid, hrest⟩ := Option.bind_eq_some_iff.1 hrun
    exact Targets.selectHits (h.selectHit (hhits hit mem_cons_self) hmid)
      (fun hit' h' => hhits hit' (mem_cons_of_mem _ h')) hrest

theorem targets_selectTargets (hk : s.Keyed) {topic} {implicitNoLocal : Bool}
    (h : s.selectTargets now topic sender implicitNoLocal = some targets) : Targets s targets := by
  rw [selectTargets] at h
  obtain ⟨selected, hsel, rfl⟩ := Option.map_eq_some_iff.1 h
  have hnone : Targets s (([] : List (Session × Bool)).map (·.1)) := ⟨by simp, by simp, by simp⟩
  exact (hnone.selectHits (fun hit hhit => matchTopic_get hk hhit) hsel).sublist
    (filter_sublist.map _)

theorem exists_of_map_eq_ok {ε α β : Type} {f : α → β} {x : Except ε α} {b}
    (h : x.map f = .ok b) : ∃ a, x = .ok a ∧ f a = b := by
  cases x with
  | error e => cases h
  | ok a => exact ⟨a, rfl, by simpa [Except.map] using h⟩

/-- How `publish` divides its targets. -/
structure Divided (cfg : Config) (size : Nat) (targets active overflows : List Session) : Prop where
  perm : ∃ left, (active ++ overflows).Perm left ∧ left.Sublist targets
  room : ∀ t ∈ active, backlogFull cfg size t = false

theorem partitionTargets_divided : ∀ {targets active overflows : List Session},
    partitionTargets cfg size targets = .ok (active, overflows) →
      Divided cfg size targets active overflows
  | [], active, overflows, h => by
    simp only [partitionTargets, Except.ok.injEq, Prod.mk.injEq] at h
    obtain ⟨rfl, rfl⟩ := h
    exact ⟨⟨[], .refl _, .refl _⟩, by simp⟩
  | t :: rest, active, overflows, h => by
    rw [partitionTargets] at h
    split at h
    · split at h
      · cases h
      · obtain ⟨⟨left, hperm, hsub⟩, hroom⟩ := partitionTargets_divided h
        exact ⟨⟨left, hperm, hsub.cons t⟩, hroom⟩
    · split at h
      · split_ifs at h
        obtain ⟨⟨a, o⟩, ho, heq⟩ := exists_of_map_eq_ok h
        cases heq
        obtain ⟨⟨left, hperm, hsub⟩, hroom⟩ := partitionTargets_divided ho
        exact ⟨⟨t :: left, perm_middle.trans (hperm.cons t), hsub.cons_cons t⟩, hroom⟩
      · next hfull =>
          obtain ⟨⟨a, o⟩, ho, heq⟩ := exists_of_map_eq_ok h
          cases heq
          obtain ⟨⟨left, hperm, hsub⟩, hroom⟩ := partitionTargets_divided ho
          refine ⟨⟨t :: left, hperm.cons t, hsub.cons_cons t⟩, fun u hu => ?_⟩
          rcases mem_cons.1 hu with rfl | hu
          · simpa using hfull
          · exact hroom u hu

theorem Targets.divided {active overflows} (h : Targets s targets)
    (hd : Divided cfg size targets active overflows) : Targets s (active ++ overflows) := by
  obtain ⟨left, hperm, hsub⟩ := hd.perm
  have hleft := h.sublist hsub
  exact ⟨((hperm.map _).nodup_iff).2 hleft.nodup, fun t ht => hleft.get t (hperm.mem_iff.1 ht),
    fun t ht => hleft.free t (hperm.mem_iff.1 ht)⟩

/-! ## Publications -/

theorem others_foldl {α : Type} {f : Store → α → Store} (key : α → Str)
    (h : ∀ s a, LocalTo (key a) s (f s a)) :
    ∀ (as : List α) s, c ∉ as.map key → (as.foldl f s).sessions[c]? = s.sessions[c]?
  | [], _, _ => rfl
  | a :: as, s, hc => by
    rw [map_cons, mem_cons, not_or] at hc
    exact (others_foldl key h as (f s a) hc.2).trans ((h s a).others c fun heq => hc.1 heq.symm)

theorem not_backlogFull (h : backlogFull cfg size t = false) :
    t.pending.size < cfg.maxMessagesPerSession ∧ t.bytes + size ≤ cfg.maxBytesPerSession := by
  simp only [backlogFull, Bool.or_eq_false_iff, decide_eq_false_iff_not] at h
  omega

theorem not_capacityExceeded {count} (hcount : count ≠ 0)
    (h : s.capacityExceeded cfg count size = false) :
    s.pending + count ≤ cfg.maxMessages ∧ s.bytes + size * count ≤ cfg.maxBytes := by
  simp only [capacityExceeded, Bool.or_eq_false_iff, decide_eq_false_iff_not, not_lt] at h
  obtain ⟨⟨⟨hmax, hpending⟩, hsize⟩, hbytes⟩ := h
  have hproduct : size * count ≤ cfg.maxBytes :=
    (Nat.le_div_iff_mul_le (Nat.pos_of_ne_zero hcount)).1 hsize
  omega

theorem attaches (cfg : Config) {id r} : ∀ (active : List (Session × Nat)) {s : Store}, s.Sound →
    (active.map (·.1.client)).Nodup → (∀ e ∈ active, s.sessions[e.1.client]? = some e.1) →
    (∀ e ∈ active, e.1.pending[id]? = none) → r < s.objects → (s.messages r).id = id →
    (active.foldl (fun s e => s.attach e.1.client id r e.2) s).Sound ∧
      (s.pending + active.length ≤ cfg.maxMessages →
        s.bytes + s.sizeOf r * active.length ≤ cfg.maxBytes →
        (∀ e ∈ active, backlogFull cfg (s.sizeOf r) e.1 = false) → s.Bounded cfg →
        (active.foldl (fun s e => s.attach e.1.client id r e.2) s).Bounded cfg)
  | [], _, hs, _, _, _, _, _ => ⟨hs, fun _ _ _ hb => hb⟩
  | e :: rest, s, hs, hnodup, hget, hnew, hr, hm => by
    obtain ⟨hnot, hnodup⟩ := nodup_cons.1 hnodup
    have ht := hget e mem_cons_self
    have hone := oneMore_attach ht (hnew e mem_cons_self) hr hm e.2
    have hrest := attaches cfg rest (hone.sound_iff.2 hs) hnodup (fun e' he' => ?_)
      (fun e' he' => hnew e' (mem_cons_of_mem _ he')) (hone.objects ▸ hr)
      ((hone.ids r).trans hm)
    · rw [foldl_cons]
      refine ⟨hrest.1, fun hpending hbytes hroom hb => ?_⟩
      rw [length_cons] at hpending hbytes
      rw [Nat.mul_add, Nat.mul_one] at hbytes
      obtain ⟨hsize, hown⟩ := not_backlogFull (hroom e mem_cons_self)
      refine hrest.2 (by rw [hone.pending]; omega) (by rw [hone.bytes, hone.sizes]; omega)
        (fun e' he' => ?_) (hone.bounded_of_room hb (by omega) (by omega) ?_ ?_)
      · rw [hone.sizes]
        exact hroom e' (mem_cons_of_mem _ he')
      · rw [ht, size_account]
        exact hsize
      · rw [ht]
        exact hown
    · have hne : e.1.client ≠ e'.1.client := fun heq => hnot (mem_map.2 ⟨e', he', heq.symm⟩)
      rw [hone.others _ hne]
      exact hget e' (mem_cons_of_mem _ he')

def holdAll (s : Store) (overflows : List Session) : Store :=
  overflows.foldl (fun s t => s.modify t.ref fun t => { t with busy := true }) s

theorem keeps_holdAll (overflows : List Session) :
    Keeps cfg (overflows.map (·.client)) s (s.holdAll overflows) := by
  -- the clients of all of them are exempt from the start
  have hall : ∀ (rest : List Session) (s : Store), (∀ t ∈ rest, t ∈ overflows) →
      Keeps cfg (overflows.map (·.client)) s (s.holdAll rest) := by
    intro rest
    induction rest with
    | nil => exact fun s _ => .refl s
    | cons t rest ih =>
      intro s hmem
      refine Keeps.trans ?_ (ih _ fun u hu => hmem u (mem_cons_of_mem _ hu))
      exact keeps_modify t.ref (fun _ => rfl) (fun _ => rfl)
        (.inl (mem_map_of_mem (hmem t mem_cons_self)))
  exact hall overflows s fun _ h => h

theorem holding_holdAll : ∀ (overflows : List Session) {s : Store},
    (overflows.map (·.client)).Nodup → (∀ t ∈ overflows, s.sessions[t.client]? = some t) →
    ∀ t ∈ overflows, (s.holdAll overflows).Holding t.ref
  | u :: rest, s, hnodup, hget, t, ht => by
    obtain ⟨hnot, hnodup⟩ := nodup_cons.1 hnodup
    rcases mem_cons.1 ht with rfl | ht
    · have hothers := others_foldl (fun t : Session => t.client)
        (fun s t => localTo_modify t.ref fun t => { t with busy := true }) rest
        (s.modify t.ref fun t => { t with busy := true }) hnot
      refine (congrArg (Option.map grip) hothers).trans ?_
      have hown : (s.modify t.ref fun t => { t with busy := true }).sessions[t.ref.client]? =
          some { t with busy := true } := by
        rw [sessions_modify, if_pos rfl, Session.ref, hget t mem_cons_self, Option.map_some,
          if_pos rfl]
      exact congrArg (Option.map grip) hown
    · refine holding_holdAll rest hnodup (fun v hv => ?_) t ht
      have hne : u.ref.client ≠ v.client := fun heq => hnot (mem_map.2 ⟨v, hv, heq.symm⟩)
      rw [(localTo_modify u.ref _).others _ hne]
      exact hget v (mem_cons_of_mem _ hv)

structure Drafted (s s₁ : Store) (size : Nat) : Prop where
  still : Still s s₁
  sessions : s₁.sessions = s.sessions
  objects : s.objects < s₁.objects
  id : (s₁.messages s.objects).id = s.nextId + 1
  size : s₁.sizeOf s.objects = size

def installMessage (s s₁ : Store) (active overflows : List Session) : Store :=
  (active.map fun t => (t, t.packetForNew)).foldl
    (fun s' e => s'.attach e.1.client (s.nextId + 1) s.objects e.2) (s₁.holdAll overflows)

section Publication

variable {s₁ : Store} {size : Nat} {active overflows : List Session}

theorem Targets.free_overflows (h : Targets s (active ++ overflows)) :
    ∀ c ∈ overflows.map (·.client), s.Free c := by
  intro c hc u hu
  obtain ⟨t, ht, rfl⟩ := mem_map.1 hc
  have hmem := mem_append_right active ht
  rw [h.get t hmem] at hu
  cases hu
  exact h.free _ hmem

theorem holding_installMessage {ref} (h : (s₁.holdAll overflows).Holding ref) :
    (s.installMessage s₁ active overflows).Holding ref :=
  Runs.foldl_invariant (I := fun s : Store => s.Holding ref)
    (fun _ _ hh => (grip_attach _ _ _ _ _).trans hh) _ h

theorem keeps_installMessage (hs : s.Sound) (hdraft : Drafted s s₁ size)
    (h : Targets s (active ++ overflows)) (hroom : ∀ t ∈ active, backlogFull cfg size t = false)
    (hcap : active = [] ∨ s.capacityExceeded cfg active.length size = false) :
    Keeps cfg [] s (s.installMessage s₁ active overflows) := by
  have hnodup := nodup_append'.1 (map_append ▸ h.nodup)
  have hhold : Keeps cfg (overflows.map (·.client)) s (s₁.holdAll overflows) :=
    (Keeps.of_same hdraft.still hdraft.sessions).trans (keeps_holdAll overflows)
  obtain ⟨hrest, hledger⟩ : SameRest s₁ (s₁.holdAll overflows) ∧
      SameLedger s₁ (s₁.holdAll overflows) :=
    Runs.foldl_invariant (I := fun s : Store => SameRest s₁ s ∧ SameLedger s₁ s)
      (fun _ t hsame => ⟨hsame.1.trans (localTo_modify t.ref _).rest,
        hsame.2.trans (sameLedger_modify t.ref _)⟩) overflows ⟨.refl s₁, .refl s₁⟩
  have hsize : (s₁.holdAll overflows).sizeOf s.objects = size := by
    rw [sizeOf, hledger.messages]
    exact hdraft.size
  have hget : ∀ t ∈ active, (s₁.holdAll overflows).sessions[t.client]? = some t := by
    intro t ht
    refine (others_foldl (fun t : Session => t.client) (fun s t => localTo_modify t.ref _)
      overflows s₁
      fun hmem => hnodup.2.2 (mem_map_of_mem ht) hmem).trans ?_
    rw [hdraft.sessions]
    exact h.get t (mem_append_left _ ht)
  have hnew : ∀ t ∈ active, t.pending[s.nextId + 1]? = none := by
    intro t ht
    have hfresh := hs.fresh (Nat.lt_succ_self _) t.client
    rw [h.get t (mem_append_left _ ht), account_get, Option.map_eq_none_iff] at hfresh
    exact hfresh
  obtain ⟨hsound, hbounded⟩ := attaches cfg (active.map fun t => (t, t.packetForNew))
    (hhold.sound hs)
    (by rw [map_map]; exact hnodup.1)
    (fun e he => by obtain ⟨t, ht, rfl⟩ := mem_map.1 he; exact hget t ht)
    (fun e he => by obtain ⟨t, ht, rfl⟩ := mem_map.1 he; exact hnew t ht)
    (by rw [hrest.objects]; exact hdraft.objects) (by rw [hledger.messages]; exact hdraft.id)
  refine .free (overflows.map (·.client)) ⟨fun _ => hsound, fun _ hb => ?_,
    fun hown hh => holding_installMessage (hhold.spares hown hh)⟩ h.free_overflows
  by_cases hnone : active = []
  · rw [installMessage, hnone]
    exact hhold.bounded hs hb
  · obtain ⟨hcount, hsum⟩ := not_capacityExceeded
      (fun hzero => hnone (length_eq_zero_iff.1 hzero)) (hcap.resolve_left hnone)
    refine hbounded ?_ ?_ (fun e he => ?_) (hhold.bounded hs hb)
    · rw [hledger.pending, hdraft.still.pending, length_map]
      exact hcount
    · rw [hledger.bytes, hdraft.still.bytes, hsize, length_map]
      exact hsum
    · obtain ⟨t, ht, rfl⟩ := mem_map.1 he
      rw [hsize]
      exact hroom t ht

theorem enters_installMessage (hsessions : s₁.sessions = s.sessions)
    (h : Targets s (active ++ overflows)) (object skipped : Nat) :
    (message object (overflows.map (·.ref)) skipped).Enters s
      (s.installMessage s₁ active overflows) := by
  have hnodup := nodup_append'.1 (map_append ▸ h.nodup)
  refine ⟨fun ref href => ?_, fun ref href => ?_, trivial⟩
  · obtain ⟨t, ht, rfl⟩ := mem_map.1 href
    exact h.free_overflows _ (mem_map_of_mem ht)
  · obtain ⟨t, ht, rfl⟩ := mem_map.1 href
    refine holding_installMessage (holding_holdAll overflows hnodup.2.1 (fun u hu => ?_) t ht)
    rw [hsessions]
    exact h.get u (mem_append_right _ hu)

theorem ends_publishAdmit (hs : s.Sound) {topic wire expires skipped reply}
    (h : Targets s (active ++ overflows))
    (hroom : ∀ t ∈ active, backlogFull cfg wire.length t = false)
    (hcap : active = [] ∨ s.capacityExceeded cfg active.length wire.length = false) :
    Ends cfg s (s.publishAdmit cfg append topic wire expires active overflows skipped reply) := by
  have hstill : Still s { s.setMessage s.objects
      { id := s.nextId + 1, expires := expires, partition := cfg.partitionOf topic,
        wire := wire } with
      nextId := s.nextId + 1, objects := s.objects + 1 } := still_draft (Nat.le_succ _) rfl le_rfl
  have hdraft : ∀ job : Job, Drafted s ({ s.setMessage s.objects
      { id := s.nextId + 1, expires := expires, partition := cfg.partitionOf topic,
        wire := wire } with
      nextId := s.nextId + 1, objects := s.objects + 1 }.countRequest job) wire.length := fun job =>
    ⟨{ hstill with }, rfl, Nat.lt_succ_self _, by simp [countRequest, setMessage],
      by simp [countRequest, setMessage, sizeOf]⟩
  unfold publishAdmit
  exact .enqueue (.of_same hstill rfl) (keeps_installMessage hs (hdraft _) h hroom hcap)
    (enters_installMessage (hdraft _).sessions h _ _)

end Publication

theorem ends_publish (hs : s.Sound) (topic wire sender : Str) (expires : Int)
    (implicitNoLocal : Bool) :
    Ends cfg s (s.publish cfg now append topic wire sender expires implicitNoLocal) := by
  refine Ends.guarded (.ite trivial fun _ => ?_)
  cases hsel : s.selectTargets now topic sender implicitNoLocal with
  | none => exact .refused trivial
  | some targets =>
    refine .ite trivial fun _ => ?_
    cases hdiv : partitionTargets cfg wire.length targets with
    | error e => exact .refused trivial
    | ok divided =>
      obtain ⟨active, overflows⟩ := divided
      have hd := partitionTargets_divided hdiv
      dsimp only
      split
      · exact .final trivial (.of_same { refl s with } rfl)
      split
      · exact .refused trivial
      refine .ite trivial fun hcap => ends_publishAdmit hs
        ((targets_selectTargets hs.keyed hsel).divided hd) hd.room ?_
      by_cases ha : active = []
      · exact .inl ha
      · exact .inr (by simpa [ha] using hcap)

theorem directedAdmit_eq (t : Session) (wire : Str) (expires : Int) :
    s.directedAdmit cfg append t.client t wire expires =
      s.publishAdmit cfg append t.client wire expires [t] [] 0
        { success with present := true, acceptedTargets := 1 } := by
  unfold directedAdmit publishAdmit
  rfl

theorem ends_enqueueDirected (hs : s.Sound) (client : Str) (epoch : Nat) (wire : Str)
    (expires : Int) : Ends cfg s (s.enqueueDirected cfg now append client epoch wire expires) := by
  refine Ends.guarded ?_
  cases ht : s.sessions[client]? with
  | none => exact .refused trivial
  | some t =>
    obtain rfl := hs.keyed client t ht
    refine .ite trivial fun _ => .ite trivial fun _ => .ite trivial fun hbusy => .ite trivial fun _
      =>
      .ite trivial fun _ => .ite trivial fun hfull => ?_
    simp only [not_or, not_not, Bool.not_eq_true] at hfull hbusy
    split
    · exact .refused trivial
    refine .ite trivial fun hcap => ?_
    rw [directedAdmit_eq]
    have htarget : Targets s ([t] ++ []) := ⟨by simp, by simpa using ht, by simpa using hbusy⟩
    refine ends_publishAdmit hs htarget (by simpa using hfull.2) (.inr ?_)
    simp only [not_or] at hcap
    simp only [capacityExceeded, length_singleton, Bool.or_eq_false_iff,
      decide_eq_false_iff_not, Nat.div_one, Nat.mul_one]
    omega

/-! ## Deliveries -/

theorem ends_fetch (client : Str) (epoch after receiveMaximum : Nat) :
    Ends cfg s (s.fetch cfg now append client epoch after receiveMaximum) := by
  refine .withCurrent fun t _ _ => ?_
  have hloop : Keeps cfg [] s _ := keeps_fetchLoop now client (window cfg receiveMaximum)
    (t.pending.toList.filter fun e => decide (after < e.1))
    { store := s, inflight := (t.pending.toList.filter fun e => decide (e.1 ≤ after)).length }
  generalize fetchLoop cfg now client (window cfg receiveMaximum) _ _ = f at hloop
  have hclaims : ∀ s', Keeps cfg [] s' (f.claims.foldl (fun s claim => s.startClaim t.ref claim)
    s') :=
    .foldl (fun _ claim => keeps_startClaim t.ref claim) f.claims
  have hcount : ∀ job : Job, Keeps cfg [] f.store (f.store.countRequest job) := fun _ =>
    .of_same { refl f.store with } rfl
  dsimp only
  split
  · exact .final trivial (hloop.trans (keeps_markAttempted _ _))
  rw [enqueue]
  cases ha : f.store.admission cfg append _ with
  | none =>
    refine ⟨hloop.trans ((hcount _).trans (hclaims _)), fun heq => ?_⟩
    cases heq
    exact enters_free rfl trivial
  | some a =>
    have hfinal := admission_final ha
    have hback : Keeps cfg [] s { f.store with deliveryBytes := f.store.deliveryBytes -
      f.reservation } :=
      hloop.trans (.of_same { refl _ with } rfl)
    cases a with
    | queued log job => exact hfinal.elim
    | deferred | full e | error e | replied r => exact .final trivial hback

theorem ends_beginDelivery (client : Str) (epoch sequence packetId : Nat) :
    Ends cfg s (s.beginDelivery client epoch sequence packetId) := by
  refine .withCurrent fun t _ _ => ?_
  split
  · exact .refused trivial
  · exact .ite trivial fun _ => .final trivial (keeps_modifyDelivery _ _ fun _ => rfl)

theorem ends_acknowledge (client : Str) (epoch packetId : Nat) (waitForCommit : Bool) :
    Ends cfg s (s.acknowledge cfg append client epoch packetId waitForCommit) := by
  refine .withCurrent fun t _ _ => ?_
  split
  · exact .refused trivial
  refine .ite trivial fun _ => ?_
  split
  · exact .ite trivial fun _ => .refused trivial
  have hcount : ∀ job : Job, Keeps cfg [] s (s.countRequest job) := fun _ =>
    .of_same { refl s with } rfl
  exact .enqueue (.refl s) ((hcount _).trans (keeps_modifyDelivery _ _ fun _ => rfl))
    (enters_free rfl trivial)

/-! ## Retained messages -/

theorem ends_mutateRetained (record : Record) (mutate : Bool → Option Mutation × RetainState) :
    Ends cfg s (s.mutateRetained cfg append record mutate) := by
  have hretain : ∀ retain, Keeps cfg [] s { s with retain := retain } := fun _ =>
    .of_same { refl s with } rfl
  refine Ends.guarded ?_
  split
  · exact .final trivial (hretain _)
  dsimp only
  split
  · next ha => exact .final (admission_final ha) (hretain _)
  · refine ⟨.of_same { refl s with } rfl, fun heq => ?_⟩
    cases heq
    exact enters_free rfl trivial

end Store

open Store in
/-- So ends every call. -/
theorem call_ends {cfg now append s} (hs : s.Sound) (c : Call) :
    Ends cfg s (c.run cfg now append s) := by
  cases c with
  | connect client owner clean expiry => exact ends_connect ..
  | disconnect client epoch expiryOverride => exact ends_disconnect hs.keyed ..
  | subscribe client epoch filter sub => exact ends_subscribe hs.keyed ..
  | unsubscribe client epoch filter => exact ends_unsubscribe hs.keyed ..
  | publish topic wire sender expires implicitNoLocal => exact ends_publish hs ..
  | enqueueDirected client epoch wire expires => exact ends_enqueueDirected hs ..
  | fetch client epoch after receiveMaximum => exact ends_fetch ..
  | beginDelivery client epoch sequence packetId => exact ends_beginDelivery ..
  | acknowledge | discard => exact ends_acknowledge ..
  | putRetained | clearRetained => exact .ite trivial fun _ => ends_mutateRetained ..

end Mqtts.Durable

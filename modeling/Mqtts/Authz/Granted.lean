import Mqtts.Authz.Fences
import Mqtts.Lib.Assoc

/-!
# Grants and the calls of the provider

The steps of `authorize`, `fetch`, `Job::wait` and `Job::poll` under the invariant of the provider.
-/

namespace Mqtts.RemoteAuth

open List Function Assoc Sys

/-! ## The invariant -/

/-- The invariant of the provider. -/
structure Inv (cfg : Config) (x : Sys) : Prop where
  jobs : ∀ {j : Nat} {J}, x.jobs[j]? = some J → JobOk cfg x J
  updates : ∀ v ∈ x.updates, v.Ok x.moment
  entries : ∀ {i key e}, (key, e) ∈ (x.shards i).entries → Stored cfg x key e
  pending : ∀ {i key j}, (key, j) ∈ (x.shards i).pending → Pending x key j
  queue : ∀ j ∈ x.queue, j < x.jobs.length
  workers : ∀ w, WorkerOk cfg x (x.workers w)
  calls : ∀ c, CallOk cfg x (x.calls c)

theorem Sys.complete_eq_setShard (x : Sys) (cfg : Config) (J : Job) (d : Decision) :
    (x.complete cfg J d).1 = x ∨ ∃ i shard, (x.complete cfg J d).1 = x.setShard i shard := by
  unfold complete
  split
  · exact .inl rfl
  · simp only
    split_ifs <;> exact .inr ⟨_, _, rfl⟩

namespace Inv

variable {cfg : Config} {x x' : Sys} {c j : Nat} {r : Request} {J J' : Job} {d : Decision}

def Job.Carries (cfg : Config) (x : Sys) (j : Nat) (J' : Job) : Prop :=
  ∃ J, x.jobs[j]? = some J ∧ J.Grows J' ∧
    ∀ d, J'.finished = some d → J.finished = some d ∨ Backed cfg J' d

/-- The invariant through a step: of every part it asks only for what has changed. -/
theorem frame (h : Inv cfg x) (hg : x.Grows x')
    (hjobs : ∀ {j J'}, x'.jobs[j]? = some J' → Job.Carries cfg x j J' ∨ JobOk cfg x' J')
    (hfenced : ∀ {J J' : Job}, Fenced cfg x J → J.Grows J' → Fenced cfg x' J')
    (hupdates : ∀ v ∈ x'.updates, v.Ok x'.moment)
    (hentries : ∀ {i key e}, (key, e) ∈ (x'.shards i).entries →
      (key, e) ∈ (x.shards i).entries ∨ Stored cfg x' key e)
    (hpending : ∀ {i key} {j : Nat}, (key, j) ∈ (x'.shards i).pending →
      (key, j) ∈ (x.shards i).pending ∨ Pending x' key j)
    (hqueue : ∀ j ∈ x'.queue, j ∈ x.queue ∨ j < x'.jobs.length)
    (hworkers : ∀ w, x'.workers w = x.workers w ∨ WorkerOk cfg x' (x'.workers w))
    (hcalls : ∀ c, x'.calls c = x.calls c ∨ CallOk cfg x' (x'.calls c)) : Inv cfg x' where
  jobs hJ' := by
    rcases hjobs hJ' with ⟨J, hJ, hgrows, hfinished⟩ | hok
    · have hold := h.jobs hJ
      refine ⟨fun hd => ?_, fun hkey => ?_⟩
      · rcases hfinished _ hd with hd | hb
        · exact (hold.finished hd).grow hgrows
        · exact hb
      · rw [hgrows.key] at hkey
        obtain ⟨hask, hfence⟩ := hold.shared hkey
        rw [hgrows.ask]
        exact ⟨hask, hfenced hfence hgrows⟩
    · exact hok
  updates := hupdates
  entries he := (hentries he).elim (fun hold => (h.entries hold).grow hg) id
  pending hp := (hpending hp).elim (fun hold => (h.pending hold).grow hg) id
  queue j hj := (hqueue j hj).elim (fun hold => hg.length (h.queue j hold)) id
  workers w := (hworkers w).elim (fun hold => hold ▸ (h.workers w).grow hg) id
  calls c := (hcalls c).elim (fun hold => hold ▸ (h.calls c).grow hg) id

theorem frame_same (h : Inv cfg x) (hjobs : x'.jobs = x.jobs) (hepoch : x'.epoch = x.epoch)
    (hscopes : x'.scopes = x.scopes) (hmoment : x'.moment = x.moment) (hmono : x'.mono = x.mono)
    (hwall : x'.wall = x.wall) (hupdates : x'.updates = x.updates)
    (hentries : ∀ {i} {key : Str} {e}, (key, e) ∈ (x'.shards i).entries →
      (key, e) ∈ (x.shards i).entries ∨ Stored cfg x' key e)
    (hpending : ∀ {i key j}, (key, j) ∈ (x'.shards i).pending →
      (key, j) ∈ (x.shards i).pending ∨ Pending x' key j)
    (hqueue : ∀ j ∈ x'.queue, j ∈ x.queue ∨ j < x'.jobs.length)
    (hworkers : ∀ w, x'.workers w = x.workers w ∨ WorkerOk cfg x' (x'.workers w))
    (hcalls : ∀ c, x'.calls c = x.calls c ∨ CallOk cfg x' (x'.calls c)) : Inv cfg x' := by
  have hg : x.Grows x' := .same_jobs hjobs hepoch hscopes hmoment hmono hwall hupdates
  refine h.frame hg (fun hJ => .inl ⟨_, hjobs ▸ hJ, .refl _, fun _ hd => .inl hd⟩)
    (fun hf hJ => hf.grow hg hJ hupdates) ?_ hentries hpending hqueue hworkers hcalls
  rw [hupdates, hmoment]
  exact h.updates

/-! ## Calls -/

theorem setCall (h : Inv cfg x) {k : Call} (hk : CallOk cfg x k) : Inv cfg (x.setCall c k) := by
  refine h.frame_same rfl rfl rfl rfl rfl rfl rfl .inl .inl (fun _ => .inl) (fun _ => .inl rfl)
    (fun i => ?_)
  by_cases hi : i = c
  · subst hi
    right
    show CallOk cfg _ (update x.calls i k i)
    rw [update_self]
    exact hk.grow (x.grows_setCall ..)
  · exact .inl (update_of_ne hi _ _)

variable {stage : Stage} {now started epoch : Nat} {key : Str} {e : CacheEntry} {cached : Cached}

section

variable (h : Inv cfg x)
include h

theorem stageOk (hstage : (x.calls c).stage = stage)
    (hask : (x.calls c).ask = .authorize r) : StageOk cfg x (x.calls c).started r stage :=
  hstage ▸ (h.calls c).stage hask

theorem setStage
    (hstage : ∀ {r}, (x.calls c).ask = .authorize r → StageOk cfg x (x.calls c).started r stage)
    (hharmless : stage.Harmless) : Inv cfg (x.setStage c stage) :=
  h.setCall ⟨hstage, hharmless, (h.calls c).started⟩

theorem restage {old : Stage} (hold : (x.calls c).stage = old)
    (hstage : ∀ {r}, StageOk cfg x (x.calls c).started r old → StageOk cfg x (x.calls c).started r
    stage) (hharmless : stage.Harmless) : Inv cfg (x.setStage c stage) :=
  h.setStage (fun hask => hstage (h.stageOk hold hask)) hharmless

theorem refused {cached : Bool} (hd : d.result ≠ .success) :
    Inv cfg (x.setStage c (.returned d now cached)) :=
  h.setStage (fun _ => granted_of_ne hd) trivial

theorem settle
    (hd : ∀ {r}, (x.calls c).ask = .authorize r → Granted cfg x (x.calls c).started r now false d) :
    Inv cfg (x.settle c j d now) := by
  unfold Sys.settle
  split
  · split <;> exact h.setStage hd trivial
  · exact h.setStage hd trivial

theorem settle_empty : Inv cfg (x.settle c j {} now) :=
  h.settle fun _ => granted_of_ne fun h => by cases h

theorem enter (hask : (x.calls c).ask = .authorize r) : Inv cfg (x.enter cfg c r) := by
  unfold Sys.enter
  split
  · exact h.refused fun h => by cases h
  split
  · split
    · exact h.refused fun h => by cases h
    · exact h.setStage (fun _ => trivial) trivial
  · split
    · exact h.refused fun h => by cases h
    rename_i key hkey
    refine h.setStage (fun {r'} hask' => ?_) trivial
    obtain rfl : r = r' := by simpa [hask] using hask'
    exact hkey

/-! ## The cache -/

theorem setShard (i : Nat) (shard : Shard) (hentries : ∀ {key e}, (key, e) ∈ shard.entries →
      (key, e) ∈ (x.shards i).entries ∨ Stored cfg x key e)
    (hpending : ∀ {key j}, (key, j) ∈ shard.pending →
      (key, j) ∈ (x.shards i).pending ∨ Pending x key j) : Inv cfg (x.setShard i shard) := by
  have hat : ∀ i', (x.setShard i shard).shards i' = if i' = i then shard else x.shards i' :=
    fun i' => update_apply ..
  refine h.frame_same rfl rfl rfl rfl rfl rfl rfl (fun {i' key e} he => ?_)
    (fun {i' key j} hp => ?_) (fun _ => .inl) (fun _ => .inl rfl) fun _ => .inl rfl
  · rw [hat] at he
    split_ifs at he with hi
    · subst hi
      exact (hentries he).imp id (·.grow (x.grows_setShard ..))
    · exact .inl he
  · rw [hat] at hp
    split_ifs at hp with hi
    · subst hi
      exact (hpending hp).imp id (·.grow (x.grows_setShard ..))
    · exact .inl hp

end

theorem mem_entries_of_usable {w} (he : x.usable cfg key now w = some e) :
    (key, e) ∈ (x.shards (shardOf key)).entries ∧ now < e.expires ∧ e.epoch = x.epoch ∧
      e.scopeEpoch = x.scopeEpoch cfg w := by
  unfold usable at he
  rw [Option.filter_eq_some_iff] at he
  obtain ⟨hlookup, hcond⟩ := he
  simp only [Bool.and_eq_true, decide_eq_true_eq, beq_iff_eq] at hcond
  exact ⟨mem_of_lookup hlookup, hcond.1.1, hcond.1.2, hcond.2⟩

section

variable (h : Inv cfg x)
include h

/-- A usable entry of the cache is a grant. -/
theorem granted_of_usable (started : Nat) (hkey : cfg.key r = some key)
    (he : x.usable cfg key now r.user.username = some e) :
    Granted cfg x started r now true e.decision := by
  intro hsuccess
  obtain ⟨hmem, hnow, hepoch, hscope⟩ := mem_entries_of_usable he
  obtain ⟨j, J, r', hj, hok⟩ := h.entries hmem
  obtain ⟨reply, hreply, hvouches⟩ := hok.backed hsuccess
  obtain ⟨⟨r'', hask, hkey'⟩, hfence⟩ := (h.jobs hj).shared hok.key
  obtain rfl : r' = r'' := by simpa [hok.ask] using hask
  have hid : cfg.identity r' = cfg.identity r := Config.identity_of_key hkey' hkey
  have husername : J.ask.username = r.user.username := by
    rw [hask]
    exact congrArg (·.2.1) hid
  have hsession : r'.user.session = r.user.session := congrArg (·.1) hid
  have hclear : Clear x started J r.user.username := by
    rw [← husername] at hscope ⊢
    exact (hfence.doubt h.updates (hok.epoch.symm.trans hepoch)).clear
      (hok.scopeEpoch.symm.trans hscope)
  refine ⟨J, mem_of_getElem? hj, reply, ⟨r', hask, hid⟩, hreply, hvouches.allows, ?_, ?_, ?_,
    fun hv hm hcreated hstarted => hclear _ hv _ hm hcreated hstarted⟩
  · rw [← hsession]
    exact hok.session.opened hnow
  · rw [← hvouches.expiresAt]
    exact hok.decision.opened hnow
  · intro _
    rw [← hvouches.maxAge]
    exact hnow.trans_le hok.age

theorem proceed (hlinked : ∀ {r}, (x.calls c).ask = .authorize r → At cfg x (x.calls c).started r j
    (fun _ => True) ∧ Held cfg x (x.calls c).started r cached) :
    Inv cfg (x.proceed c j cached) := by
  unfold Sys.proceed
  split
  · rename_i d now
    exact h.setStage (fun hask => (hlinked hask).2 d now rfl) trivial
  · exact h.setStage (fun hask => (hlinked hask).1) trivial

theorem serves_of_key (hkey : cfg.key r = some key) (hj : x.jobs[j]? = some J)
    (hJ : J.key = some key) : Serves cfg started r J := by
  obtain ⟨⟨r', hask, hkey'⟩, -⟩ := (h.jobs hj).shared hJ
  refine ⟨⟨r', hask, Config.identity_of_key hkey' hkey⟩, fun hnone => ?_⟩
  rw [hJ] at hnone
  cases hnone

theorem addJob {J : Job} (hJ : JobOk cfg { x with jobs := x.jobs ++ [J] } J) :
    Inv cfg { x with jobs := x.jobs ++ [J] } := by
  have hg := x.grows_addJob J
  refine h.frame hg (fun {j J'} hj => ?_) (fun hf hgrows => hf.grow hg hgrows rfl) h.updates
    .inl .inl (fun _ => .inl) (fun _ => .inl rfl) fun _ => .inl rfl
  rcases Nat.lt_trichotomy j x.jobs.length with hlt | heq | hgt
  · refine .inl ⟨J', ?_, .refl _, fun _ hd => .inl hd⟩
    exact (List.getElem?_append_left hlt).symm.trans hj
  · right
    obtain rfl : J = J' := by simpa [heq] using hj
    exact hJ
  · rw [List.getElem?_eq_none (by simp; omega)] at hj
    cases hj

/-- A call joins the job that is pending for its key, or makes one. -/
theorem join {scopeEpoch : Nat} (hask : (x.calls c).ask = .authorize r)
    (hkey : cfg.key r = some key) (hepoch : epoch ≤ x.epoch)
    (hscope : scopeEpoch ≤ x.scopeEpoch cfg r.user.username)
    (hcached : Held cfg x (x.calls c).started r cached)
    (hfree : (x.shards (shardOf key)).pending.lookup key = none →
    (x.shards (shardOf key)).pending.length < cfg.queueCapacity + cfg.workerCount → ∀ v ∈
    x.updates, ¬ v.Midway r.user.username) :
    Inv cfg (x.join cfg c r key epoch scopeEpoch cached) := by
  have hself : ∀ {r'}, (x.calls c).ask = .authorize r' → r' = r := fun hask' => by
    simpa [hask] using hask'.symm
  rcases hp : (x.shards (shardOf key)).pending.lookup key with _ | j
  · by_cases hroom : (x.shards (shardOf key)).pending.length < cfg.queueCapacity + cfg.workerCount
    · have hmid := hfree hp hroom
      have hdone : ∀ {v : Update}, v ∈ x.updates → v.Reached r.user.username →
          ∃ m, v.completed = some m ∧ m ≤ x.moment := by
        intro v hv hreached
        have hstage : v.stage = .done := by
          by_contra hne
          exact hmid v hv ⟨hne, hreached⟩
        obtain ⟨m, hm⟩ := Option.isSome_iff_exists.1 ((h.updates v hv).completed hstage)
        exact ⟨m, hm, ((h.updates v hv).done hm).2⟩
      simp only [Sys.join, hp, if_pos hroom]
      set J : Job :=
        { ask := .authorize r
          key := some key
          started := x.mono
          deadline := x.mono + cfg.timeout
          epoch := epoch
          scopeEpoch := scopeEpoch
          created := x.moment }
      have hJ : JobOk cfg { x with jobs := x.jobs ++ [J] } J := by
        refine ⟨fun hd => (by cases hd), fun hk => ⟨⟨r, rfl, hk ▸ hkey⟩, hepoch, hscope, ?_⟩⟩
        exact fun hv hreached => .inl (hdone hv hreached)
      have hat : ({ x with jobs := x.jobs ++ [J] } : Sys).jobs[x.jobs.length]? = some J := by simp
      have h₁ := h.addJob hJ
      have h₂ := h₁.setShard (shardOf key)
        { x.shards (shardOf key) with
          pending := (key, x.jobs.length) :: (x.shards (shardOf key)).pending }
        (fun he => .inl he) fun {key' j'} hmem => by
          rcases mem_cons.1 hmem with heq | hold
          · cases heq
            exact .inr ⟨J, hat, rfl⟩
          · exact .inl hold
      refine h₂.setStage (fun {r'} hask' => ?_) trivial
      obtain rfl := hself hask'
      refine ⟨⟨J, hat, ⟨⟨r', rfl, rfl⟩, fun hnone => (by cases hnone)⟩, trivial⟩, fun d now he =>
        ?_⟩
      exact ((hcached d now he).grow (x.grows_addJob J) (h.calls c).started).grow
        (Sys.grows_setShard ..) (h₁.calls c).started
    · simp only [Sys.join, hp, if_neg hroom]
      split
      · rename_i d now
        refine h.setStage (fun {r'} hask' => ?_) trivial
        obtain rfl := hself hask'
        exact hcached d now rfl
      · exact h.refused fun h => by cases h
  · simp only [Sys.join, hp]
    obtain ⟨J, hJ, hJkey⟩ := h.pending (mem_of_lookup hp)
    refine h.proceed fun {r'} hask' => ?_
    obtain rfl := hself hask'
    exact ⟨⟨J, hJ, h.serves_of_key hkey hJ hJkey, trivial⟩, hcached⟩

/-- A lookup makes a job while no update for its user is on the way. -/
theorem look {scopeEpoch : Nat} (hask : (x.calls c).ask = .authorize r)
    (hkey : cfg.key r = some key) (hepoch : epoch ≤ x.epoch)
    (hscope : scopeEpoch ≤ x.scopeEpoch cfg r.user.username)
    (hfree : (x.usable cfg key now r.user.username).all (fun e => !e.settled now) →
    (x.shards (shardOf key)).pending.lookup key = none → (x.shards (shardOf key)).pending.length <
    cfg.queueCapacity + cfg.workerCount → ∀ v ∈ x.updates, ¬ v.Midway r.user.username) :
    Inv cfg (x.look cfg c r key now epoch scopeEpoch) := by
  have hothers : ∀ {key' e'}, (key', e') ∈ (x.shards (shardOf key)).entries.filter (·.1 ≠ key) →
        (key', e') ∈ (x.shards (shardOf key)).entries := fun he => (mem_filter.1 he).1
  have hpend : ∀ entries, ((x.setShard (shardOf key)
      { x.shards (shardOf key) with entries := entries }).shards (shardOf key)).pending =
        (x.shards (shardOf key)).pending := fun entries => by
    simp [Sys.setShard]
  rcases hu : x.usable cfg key now r.user.username with _ | e <;> simp only [Sys.look, hu]
  · have h₁ := h.setShard (shardOf key)
      { x.shards (shardOf key) with
        entries := (x.shards (shardOf key)).entries.filter (·.1 ≠ key) }
      (fun he => .inl (hothers he)) .inl
    refine h₁.join hask hkey hepoch hscope (fun d now he => (by cases he)) fun hp hroom => ?_
    rw [hpend] at hp hroom
    exact hfree (by rw [hu]; rfl) hp hroom
  · have hgranted := h.granted_of_usable (x.calls c).started hkey hu
    have hmem := (mem_entries_of_usable hu).1
    have h₁ := h.setShard (shardOf key)
      { x.shards (shardOf key) with
        entries := (key, e) :: (x.shards (shardOf key)).entries.filter (·.1 ≠ key) }
      (fun he => by
        rcases mem_cons.1 he with heq | hold
        · cases heq
          exact .inl hmem
        · exact .inl (hothers hold)) .inl
    have hgranted₁ := hgranted.grow (x.grows_setShard (shardOf key)
      { x.shards (shardOf key) with
        entries := (key, e) :: (x.shards (shardOf key)).entries.filter (·.1 ≠ key) })
      (h.calls c).started
    split
    · refine h₁.setStage (fun {r'} hask' => ?_) trivial
      obtain rfl : r = r' := by simpa [hask] using hask.symm.trans hask'
      exact hgranted₁
    · rename_i hsettled
      refine h₁.join hask hkey hepoch hscope (fun d now he => ?_) fun hp hroom => ?_
      · obtain ⟨rfl, rfl⟩ := Prod.mk.inj (Option.some.inj he)
        exact hgranted₁
      · rw [hpend] at hp hroom
        exact hfree (by rw [hu]; simpa using hsettled) hp hroom

/-! ## Jobs -/

theorem setJob {f : Job → Job} (hf : ∀ J : Job, J.Grows (f J))
    (hfinished : ∀ J, x.jobs[j]? = some J → ∀ d, (f J).finished = some d →
      J.finished = some d ∨ Backed cfg (f J) d) : Inv cfg (x.setJob j f) := by
  have hg := x.grows_setJob j hf
  refine h.frame hg (fun {i J'} hi => .inl ?_) (fun hfence hJ => hfence.grow hg hJ rfl) h.updates
    .inl .inl (fun _ => .inl) (fun _ => .inl rfl) fun _ => .inl rfl
  simp only [Sys.setJob, List.getElem?_modify, Option.map_eq_map, Option.map_eq_some_iff] at hi
  obtain ⟨J, hJ, rfl⟩ := hi
  refine ⟨J, hJ, ?_⟩
  split_ifs with hji
  · exact ⟨hf J, hfinished J (hji ▸ hJ)⟩
  · exact ⟨.refl J, fun _ hd => .inl hd⟩

theorem conclude (hd : Delivers cfg x j d) : Inv cfg (x.conclude j d) := by
  obtain ⟨J₀, hj, hb⟩ := hd
  refine h.setJob (fun J => ⟨rfl, rfl, rfl, rfl, rfl, rfl, fun _ hm => hm⟩) fun J hJ d' hd' => ?_
  cases hj.symm.trans hJ
  cases hd'
  exact .inr (hb.grow ⟨rfl, rfl, rfl, rfl, rfl, rfl, fun _ hm => hm⟩)

theorem setQueue {queue : List Nat}
    (hqueue : ∀ i ∈ queue, i ∈ x.queue ∨ i < x.jobs.length) : Inv cfg { x with queue := queue } :=
  h.frame_same rfl rfl rfl rfl rfl rfl rfl .inl .inl hqueue (fun _ => .inl rfl)
    (fun _ => .inl rfl)

theorem enqueue {body : Str} {login : Bool} (hj : j < x.jobs.length)
    (he : x.enqueue cfg j body login = some x') :
    Inv cfg x' ∧ ∃ queue, x' = { x with queue := queue } := by
  unfold Sys.enqueue at he
  split_ifs at he
  cases he
  refine ⟨h.setQueue fun i hi => ?_, _, rfl⟩
  rcases mem_append.1 hi with hold | hnew
  · exact .inl hold
  · exact .inr (mem_singleton.1 hnew ▸ hj)

theorem fill (hask : (x.calls c).ask = .authorize r)
    (hstage : (x.calls c).stage = .filling j cached) : Inv cfg (x.fill cfg c r j cached) := by
  obtain ⟨⟨J, hj, -⟩, -⟩ := h.stageOk hstage hask
  have hlt : j < x.jobs.length := (List.getElem?_eq_some_iff.1 hj).1
  unfold Sys.fill
  split
  · exact h.restage hstage id trivial
  rename_i body hbody
  have h₁ : Inv cfg (x.setJob j fun J => { J with body := body }) :=
    h.setJob (fun J => ⟨rfl, rfl, rfl, rfl, rfl, rfl, fun _ hm => hm⟩)
      (fun J _ d hd => .inl hd)
  have hlt₁ : j < (x.setJob j fun J => { J with body := body }).jobs.length := by
    simpa [Sys.setJob] using hlt
  have hfail : Inv cfg ((x.setJob j fun J => { J with body := body }).setStage c
      (.failing j cached false)) := h₁.restage hstage id trivial
  simp only
  split
  · exact hfail
  split
  · exact hfail
  · rename_i x₂ he
    obtain ⟨h₂, queue, rfl⟩ := h₁.enqueue hlt₁ he
    exact h₂.proceed (h₂.stageOk hstage)

theorem begin {body : Str} : Inv cfg (x.begin cfg c body) := by
  unfold Sys.begin
  split
  · exact h.refused fun h => by cases h
  · exact h.setCall ⟨fun _ => trivial, trivial, (h.calls c).started⟩

theorem retry {f : Fetch}
    (hd : ∀ {r}, (x.calls c).ask = .authorize r → Granted cfg x (x.calls c).started r now false d) :
    Inv cfg (x.retry c f d now) := by
  unfold Sys.retry
  split
  · exact h.setCall ⟨fun _ => trivial, trivial, (h.calls c).started⟩
  · exact h.setStage hd trivial

theorem fence {f : Fetch} {created : Nat}
    (hstage : (x.calls c).stage = .fencing f started created epoch) :
    Inv cfg (x.fence cfg c f started created epoch) := by
  set J : Job :=
    { ask := (x.calls c).ask
      key := none
      body := f.body
      started := started
      deadline := f.deadline
      epoch := epoch
      scopeEpoch := x.scopeEpoch cfg (x.calls c).ask.username
      created := created }
  have h₁ : Inv cfg { x with jobs := x.jobs ++ [J] } :=
    h.addJob ⟨fun hd => (by cases hd), fun hk => (by cases hk)⟩
  refine h₁.setStage (fun {r} hask => ?_) trivial
  exact ⟨J, by simp, ⟨⟨r, hask, rfl⟩, fun _ => h₁.stageOk hstage hask⟩, trivial⟩

end

/-! ## The completion of a job -/

theorem bounded_le {expires bound} : x.bounded expires bound ≤ expires := by
  unfold bounded
  split_ifs
  · exact le_rfl
  · exact Nat.min_le_left ..

theorem ends_bounded {expires bound t} (hle : t ≤ x.bounded expires bound)
    (hlate : x.mono < t) : x.Ends t bound := by
  unfold bounded at hle
  split_ifs at hle with hb
  · exact .inl hb
  · right
    omega

theorem expiry_spec (hask : J.ask = .authorize r) (hlate : x.mono < x.expiry cfg J d) :
    x.expiry cfg J d ≤ J.started + d.maxAgeMs ∧
      x.Ends (x.expiry cfg J d) (cfg.sessionExpiry r.user.session) ∧
        x.Ends (x.expiry cfg J d) d.expiresAt := by
  have heq : x.expiry cfg J d = x.bounded
      (x.bounded (J.started + d.maxAgeMs) (cfg.sessionExpiry r.user.session)) d.expiresAt := by
    rw [expiry, hask]
  have hle := heq.le.trans bounded_le
  exact ⟨hle.trans bounded_le, ends_bounded hle hlate, ends_bounded heq.le hlate⟩

theorem mem_store {key' entries} (he : (key', e) ∈ x.store cfg J key d entries) :
    (key', e) ∈ entries ∨ key' = key ∧ e.decision = d ∧ e.expires = x.expiry cfg J d ∧
      e.epoch = J.epoch ∧ e.scopeEpoch = J.scopeEpoch ∧ x.mono < x.expiry cfg J d := by
  unfold store at he
  simp only at he
  split_ifs at he with hversion hfresh
  · exact .inl (mem_filter.1 he).1
  · exact .inl (mem_filter.1 he).1
  · rcases mem_cons.1 he with heq | hold
    · cases heq
      exact .inr ⟨rfl, rfl, rfl, rfl, rfl, by omega⟩
    · exact .inl (mem_filter.1 (mem_of_mem_take hold)).1

theorem mem_holdOff {key' entries} (he : (key', e) ∈ x.holdOff cfg key entries) :
    ∃ e₀, (key', e₀) ∈ entries ∧ e = { e₀ with retryAfter := e.retryAfter } := by
  obtain ⟨⟨key₀, e₀⟩, hmem, heq⟩ := mem_map.1 he
  split_ifs at heq with hkey <;> cases heq
  · exact ⟨e₀, hkey ▸ hmem, rfl⟩
  · exact ⟨_, hmem, rfl⟩

theorem complete (h : Inv cfg x) (hj : x.jobs[j]? = some J) (hb : Backed cfg J d) :
    Inv cfg (x.complete cfg J d).1 := by
  unfold Sys.complete
  split
  · exact h
  rename_i key hkey
  obtain ⟨⟨r, hask, -⟩, -⟩ := (h.jobs hj).shared hkey
  have hpending : ∀ {key' j'}, (key', j') ∈ (x.shards (shardOf key)).pending.filter (·.1 ≠ key) →
        (key', j') ∈ (x.shards (shardOf key)).pending ∨ Pending x key' j' :=
    fun hp => .inl (mem_filter.1 hp).1
  split_ifs with hfence hauth
  · exact h.setShard _ _ .inl hpending
  · refine h.setShard _ _ (fun {key' e} he => .inr ?_) hpending
    obtain ⟨e₀, hmem, heq⟩ := mem_holdOff he
    obtain ⟨j₀, J₀, r₀, hj₀, hok⟩ := h.entries hmem
    rw [heq]
    exact ⟨j₀, J₀, r₀, hj₀, hok.key, hok.ask, hok.epoch, hok.scopeEpoch, hok.backed, hok.age,
      hok.session, hok.decision⟩
  · refine h.setShard _ _ (fun {key' e} he => ?_) hpending
    rcases mem_store he with hold | ⟨rfl, rfl, hexpires, hepoch, hscope, hlate⟩
    · exact .inl hold
    · obtain ⟨hage, hsession, hdecision⟩ := expiry_spec hask hlate
      rw [← hexpires] at hage hsession hdecision
      exact .inr ⟨j, J, r, hj, hkey, hask, hepoch, hscope, hb, hage, hsession, hdecision⟩

theorem complete_backed (hb : Backed cfg J d) : Backed cfg J (x.complete cfg J d).2 := by
  unfold Sys.complete
  split
  · exact hb
  simp only
  split_ifs
  · exact backed_of_ne fun h => by cases h
  · exact hb
  · exact hb

theorem complete_empty : (x.complete cfg J {}).2.result ≠ .success := by
  unfold Sys.complete
  split
  · exact (fun h => by cases h)
  · simp only
    split_ifs <;> exact (fun h => by cases h)

/-! ## Calls at a job -/

theorem doubt_of_epoch (h : Inv cfg x) (hj : x.jobs[j]? = some J) (hs : Serves cfg started r J)
    (hepoch : J.epoch = x.epoch) : Doubt cfg x started J r.user.username := by
  rcases hkey : J.key with _ | key
  · exact (clear_of_created (hs.own hkey)).doubt
  · rw [← hs.username]
    exact ((h.jobs hj).shared hkey).2.doubt h.updates hepoch

theorem clear_of_scope (hs : Serves cfg started r J) (hd : Doubt cfg x started J r.user.username)
    (hscope : J.scopeEpoch = x.scopeEpoch cfg J.ask.username) : Clear x started J r.user.username :=
  hd.clear (hs.username ▸ hscope)

/-- So is the answer of a job whose fence still holds. -/
theorem granted_of_job (hj : x.jobs[j]? = some J) (hs : Serves cfg started r J)
    (hb : Backed cfg J d) (hc : Clear x started J r.user.username)
    (hsession : x.sessionOver cfg r = false) :
    Granted cfg x started r x.mono false (x.unexpired d) := by
  intro hsuccess
  unfold unexpired at hsuccess
  split_ifs at hsuccess with hexpired
  · cases hsuccess
  obtain ⟨reply, hreply, hvouches⟩ := hb hsuccess
  refine ⟨J, mem_of_getElem? hj, reply, hs.asked, hreply, hvouches.allows, ?_, ?_,
    (fun h => by cases h), fun hv hm hcreated hstarted => hc _ hv _ hm hcreated hstarted⟩
  · simp only [sessionOver, Bool.and_eq_false_iff, decide_eq_false_iff_not] at hsession
    unfold Sys.Open
    omega
  · rw [← hvouches.expiresAt]
    unfold Sys.Open
    omega

theorem pollJob (h : Inv cfg x) (hj : x.jobs[j]? = some J)
    (hstage : (x.calls c).stage = .pollingJob j)
    (hsession : ∀ r, (x.calls c).ask = .authorize r → x.sessionOver cfg r = false) :
    Inv cfg (x.pollJob c j J) := by
  unfold Sys.pollJob
  split
  · rename_i d hfinished
    refine h.settle fun {r} hask => ?_
    obtain ⟨J', hj', hserves, hclear⟩ := h.stageOk hstage hask
    cases hj.symm.trans hj'
    exact granted_of_job hj hserves ((h.jobs hj).finished hfinished) hclear (hsession r hask)
  · split
    · refine h.setStage (fun hask => ?_) trivial
      exact At.grow (.same_jobs rfl rfl rfl rfl rfl rfl rfl) (fun _ _ => trivial)
        (h.stageOk hstage hask)
    · exact h.settle_empty

theorem validate (h : Inv cfg x) (hj : x.jobs[j]? = some J) (hd : J.finished = some d)
    (hat : ∀ {r}, (x.calls c).ask = .authorize r →
      At cfg x (x.calls c).started r j fun _ => True) :
    Inv cfg (x.setStage c (.validating j d)) := by
  refine h.setStage (fun hask => ?_) trivial
  obtain ⟨J', hj', hserves, -⟩ := hat hask
  cases hj.symm.trans hj'
  exact ⟨J, hj, hserves, (h.jobs hj).finished hd⟩

/-- A call takes its answer from a job before its session ends. -/
theorem advanceJob (h : Inv cfg x) (hj : x.jobs[j]? = some J)
    (hjob : (x.calls c).stage.job = some j) (hsession : ∀ r, (x.calls c).ask = .authorize r →
      (∃ d, (x.calls c).stage = .expiring j d) ∨ (x.calls c).stage = .pollingJob j →
        x.sessionOver cfg r = false)
    (hstep : x.advanceJob cfg c j J (x.calls c).stage = some x') : Inv cfg x' := by
  have hlt : j < x.jobs.length := (List.getElem?_eq_some_iff.1 hj).1
  generalize hstage : (x.calls c).stage = stage at hjob hsession hstep
  cases stage <;> cases hjob <;> simp only [Sys.advanceJob] at hstep
  case awaiting =>
    split at hstep
    · cases hstep
      exact h.restage hstage id trivial
    · split at hstep
      · rename_i d hd
        cases hstep
        exact h.validate hj hd (h.stageOk hstage)
      · split at hstep <;> cases hstep
        · exact h.settle_empty
        · have h₁ : Inv cfg (x.setJob j (fun J => { J with waiters := J.waiters + 1 })) :=
            h.setJob (fun J => ⟨rfl, rfl, rfl, rfl, rfl, rfl, fun _ hm => hm⟩)
              (fun J _ d hd => .inl hd)
          exact h₁.restage hstage id trivial
  case waiting =>
    split at hstep
    all_goals
      cases hstep
      exact h.restage hstage id trivial
  case parked =>
    split at hstep <;> cases hstep
    · rename_i d hd
      exact h.validate hj hd (h.stageOk hstage)
    · exact h.restage hstage id trivial
  case lastLook =>
    split at hstep <;> cases hstep
    · rename_i d hd
      exact h.validate hj hd (h.stageOk hstage)
    · exact h.settle_empty
  case validating d =>
    split at hstep <;> cases hstep
    · rename_i hepoch
      refine h.setStage (fun hask => ?_) trivial
      obtain ⟨J', hj', hserves, hb⟩ := h.stageOk hstage hask
      cases hj.symm.trans hj'
      exact ⟨J, hj, hserves, hb, h.doubt_of_epoch hj hserves hepoch⟩
    · exact h.settle_empty
  case validatingScope d =>
    split at hstep <;> cases hstep
    · rename_i hscope
      refine h.setStage (fun hask => ?_) trivial
      obtain ⟨J', hj', hserves, hb, hdoubt⟩ := h.stageOk hstage hask
      cases hj.symm.trans hj'
      exact ⟨J, hj, hserves, hb, clear_of_scope hserves hdoubt hscope⟩
    · exact h.settle_empty
  case expiring d =>
    cases hstep
    refine h.settle (fun {r} hask => ?_)
    obtain ⟨J', hj', hserves, hb, hclear⟩ := h.stageOk hstage hask
    exact granted_of_job hj' hserves hb hclear (hsession r hask (.inl ⟨d, rfl⟩))
  case polling =>
    split at hstep <;> cases hstep
    · rename_i hepoch
      refine h.setStage (fun hask => ?_) trivial
      obtain ⟨J', hj', hserves, -⟩ := h.stageOk hstage hask
      cases hj.symm.trans hj'
      exact ⟨J, hj, hserves, h.doubt_of_epoch hj hserves hepoch⟩
    · exact h.settle_empty
  case pollingScope =>
    split at hstep <;> cases hstep
    · rename_i hscope
      refine h.setStage (fun hask => ?_) trivial
      obtain ⟨J', hj', hserves, hdoubt⟩ := h.stageOk hstage hask
      cases hj.symm.trans hj'
      exact ⟨J, hj, hserves, clear_of_scope hserves hdoubt hscope⟩
    · exact h.settle_empty
  case pollingJob =>
    cases hstep
    exact h.pollJob hj hstage fun r hask => hsession r hask (.inr rfl)
  case rechecking f d now =>
    split at hstep <;> cases hstep
    · exact h.restage hstage id trivial
    · exact h.retry (h.stageOk hstage)
  case recheckingScope f d now =>
    split at hstep <;> cases hstep
    · exact h.restage hstage id trivial
    · exact h.retry (h.stageOk hstage)
  case posting f =>
    split at hstep <;> cases hstep
    · exact h.refused fun h => by cases h
    · rename_i x₁ he
      obtain ⟨h₁, queue, rfl⟩ := h.enqueue hlt he
      exact h₁.restage hstage id trivial
  case failing cached thrown =>
    cases hstep
    have hb : Backed cfg J ({} : Decision) := backed_of_ne fun h => by cases h
    have h₁ := h.complete hj hb
    have hcalls : (x.complete cfg J {}).1.calls = x.calls := by
      rcases x.complete_eq_setShard cfg J {} with heq | ⟨_, _, heq⟩
      · rw [heq]
      · rw [heq]
        rfl
    rw [← hcalls] at hstage
    exact h₁.restage hstage id complete_empty
  case failed d cached thrown =>
    cases hstep
    have hharmless := (h.calls c).harmless
    rw [hstage] at hharmless
    have h₁ := h.conclude (d := d) ⟨J, hj, backed_of_ne hharmless⟩
    split
    · exact h₁.refused fun h => by cases h
    · exact h₁.proceed (h₁.stageOk hstage)

end Inv

end Mqtts.RemoteAuth

import Mqtts.Authz.Provider

/-!
# What the grants of the provider rest on

Where a decision on its way to a call comes from, and what the fence of its job says about the
updates. These facts speak of jobs, epochs and completed updates, which only grow (`Sys.Grows`), so
they are kept by every step that does not touch them.
-/

namespace Mqtts.RemoteAuth

/-! ## Growth -/

structure Job.Grows (J J' : Job) : Prop where
  ask : J'.ask = J.ask
  key : J'.key = J.key
  started : J'.started = J.started
  epoch : J'.epoch = J.epoch
  scopeEpoch : J'.scopeEpoch = J.scopeEpoch
  created : J'.created = J.created
  replies : J.replies ⊆ J'.replies

theorem Job.Grows.refl (J : Job) : J.Grows J := ⟨rfl, rfl, rfl, rfl, rfl, rfl, fun _ h => h⟩

/-- Jobs, epochs and completed updates only grow. -/
structure Sys.Grows (x x' : Sys) : Prop where
  jobs : ∀ {j : Nat} {J : Job}, x.jobs[j]? = some J → ∃ J', x'.jobs[j]? = some J' ∧ J.Grows J'
  epoch : x.epoch ≤ x'.epoch
  scopes : ∀ s, x.scopes s ≤ x'.scopes s
  moment : x.moment ≤ x'.moment
  clocks : x.mono + x'.wall = x'.mono + x.wall
  updates : ∀ {v : Update} {m}, v ∈ x'.updates → v.completed = some m → m < x.moment → v ∈ x.updates

theorem Sys.Grows.of_jobs {x x' : Sys}
    (hjobs : ∀ {j : Nat} {J : Job}, x.jobs[j]? = some J → ∃ J', x'.jobs[j]? = some J' ∧ J.Grows J')
    (hepoch : x'.epoch = x.epoch) (hscopes : x'.scopes = x.scopes)
    (hmoment : x'.moment = x.moment) (hmono : x'.mono = x.mono) (hwall : x'.wall = x.wall)
    (hupdates : x'.updates = x.updates) : x.Grows x' where
  jobs := hjobs
  epoch := hepoch.ge
  scopes s := by rw [hscopes]
  moment := hmoment.ge
  clocks := by rw [hmono, hwall]
  updates hv _ _ := hupdates ▸ hv

theorem Sys.Grows.same_jobs {x x' : Sys} (hjobs : x'.jobs = x.jobs)
    (hepoch : x'.epoch = x.epoch) (hscopes : x'.scopes = x.scopes)
    (hmoment : x'.moment = x.moment) (hmono : x'.mono = x.mono) (hwall : x'.wall = x.wall)
    (hupdates : x'.updates = x.updates) : x.Grows x' :=
  .of_jobs (fun h => ⟨_, hjobs ▸ h, .refl _⟩) hepoch hscopes hmoment hmono hwall hupdates

theorem Sys.grows_setCall (x : Sys) (c : Nat) (k : Call) : x.Grows (x.setCall c k) :=
  .same_jobs rfl rfl rfl rfl rfl rfl rfl

theorem Sys.grows_setShard (x : Sys) (i : Nat) (shard : Shard) : x.Grows (x.setShard i shard) :=
  .same_jobs rfl rfl rfl rfl rfl rfl rfl

theorem Sys.grows_addJob (x : Sys) (J : Job) : x.Grows { x with jobs := x.jobs ++ [J] } := by
  refine .of_jobs (fun {j J₀} hj => ⟨J₀, ?_, .refl _⟩) rfl rfl rfl rfl rfl rfl
  exact (List.getElem?_append_left (List.getElem?_eq_some_iff.1 hj).1).trans hj

theorem Sys.grows_setJob (x : Sys) (j : Nat) {f : Job → Job} (hf : ∀ J : Job, J.Grows (f J)) :
    x.Grows (x.setJob j f) := by
  refine .of_jobs (fun {i J} hi => ?_) rfl rfl rfl rfl rfl rfl
  have hi' : (x.setJob j f).jobs[i]? = some (if j = i then f J else J) := by
    simp only [Sys.setJob, List.getElem?_modify, hi]
    split_ifs <;> rfl
  refine ⟨_, hi', ?_⟩
  split_ifs
  · exact hf J
  · exact .refl J

section

variable {cfg : Config} {x x' : Sys} {started : Nat} {r : Request} {J J' : Job} {d : Decision}
  {j now bound : Nat} {w : Str}

theorem Sys.Grows.length (hg : x.Grows x') (h : j < x.jobs.length) : j < x'.jobs.length := by
  obtain ⟨J', hJ', -⟩ := hg.jobs (List.getElem?_eq_getElem h)
  exact (List.getElem?_eq_some_iff.1 hJ').1

theorem Sys.Grows.scopeEpoch (hg : x.Grows x') (cfg : Config) (w : Str) :
    x.scopeEpoch cfg w ≤ x'.scopeEpoch cfg w := hg.scopes _

theorem Sys.Open.grow (hg : x.Grows x') (h : x.Open now bound) : x'.Open now bound := by
  have hclocks := hg.clocks
  unfold Sys.Open at h ⊢
  omega

/-- The bound is not passed before the monotonic clock shows `expires`. -/
def Sys.Ends (x : Sys) (expires bound : Nat) : Prop :=
  bound = 0 ∨ expires + x.wall ≤ bound + x.mono

theorem Sys.Ends.grow (hg : x.Grows x') {expires : Nat} (h : x.Ends expires bound) :
    x'.Ends expires bound := by
  have hclocks := hg.clocks
  unfold Sys.Ends at h ⊢
  omega

theorem Sys.Ends.opened {expires} (h : x.Ends expires bound) (hnow : now < expires) :
    x.Open now bound := by
  unfold Sys.Ends at h
  unfold Sys.Open
  omega

/-! ## Fences and updates -/

def Update.Reached (v : Update) (username : Str) : Prop :=
  match v.stage with
  | .comparing | .replacing | .advancing => False
  | .naming rest => username ∈ v.invalidated ∧ username ∉ rest
  | .clearing _ => True
  | .done => v.Names username

def Update.Midway (v : Update) (username : Str) : Prop := v.stage ≠ .done ∧ v.Reached username

def UpdateStage.Mild : UpdateStage → Prop
  | .comparing | .naming _ => True
  | _ => False

structure Update.Ok (v : Update) (moment : Nat) : Prop where
  done : ∀ {m}, v.completed = some m → v.stage = .done ∧ m ≤ moment
  completed : v.stage = .done → v.completed.isSome
  mild : v.stage.Mild → v.full = false

/-- An update that has counted up is complete when the job is made, or the job's fence no longer
holds. -/
structure Fenced (cfg : Config) (x : Sys) (J : Job) : Prop where
  epoch : J.epoch ≤ x.epoch
  scopeEpoch : J.scopeEpoch ≤ x.scopeEpoch cfg J.ask.username
  reached : ∀ {v}, v ∈ x.updates → v.Reached J.ask.username →
    (∃ m, v.completed = some m ∧ m ≤ J.created) ∨ J.epoch < x.epoch ∨
      J.scopeEpoch < x.scopeEpoch cfg J.ask.username

/-- The call loads the two epochs one after the other: after the first one, the second would show
such an update. -/
def Doubt (cfg : Config) (x : Sys) (started : Nat) (J : Job) (username : Str) : Prop :=
  ∀ v ∈ x.updates, ∀ m, v.completed = some m → J.created < m → m < started →
    v.Names username → J.scopeEpoch < x.scopeEpoch cfg username

/-- No update for the user was completed between the making of the job and the start of the call. -/
def Clear (x : Sys) (started : Nat) (J : Job) (username : Str) : Prop :=
  ∀ v ∈ x.updates, ∀ m, v.completed = some m → J.created < m → m < started → ¬ v.Names username

theorem Fenced.doubt (h : Fenced cfg x J) (hok : ∀ v ∈ x.updates, v.Ok x.moment)
    (hepoch : J.epoch = x.epoch) : Doubt cfg x started J J.ask.username := by
  intro v hv m hm hcreated _ hnames
  have hreached : v.Reached J.ask.username := by
    rw [Update.Reached, ((hok v hv).done hm).1]
    exact hnames
  rcases h.reached hv hreached with ⟨m', hm', hle⟩ | hlt | hlt
  · cases hm.symm.trans hm'
    omega
  · omega
  · exact hlt

theorem Doubt.clear (h : Doubt cfg x started J w) (hscope : J.scopeEpoch = x.scopeEpoch cfg w) :
    Clear x started J w := by
  intro v hv m hm hcreated hstarted hnames
  exact absurd hscope (h v hv m hm hcreated hstarted hnames).ne

theorem clear_of_created (h : started ≤ J.created) : Clear x started J w := by
  intro v _ m _ hcreated hstarted
  omega

theorem Clear.doubt (h : Clear x started J w) : Doubt cfg x started J w :=
  fun v hv m hm hcreated hstarted hnames => absurd hnames (h v hv m hm hcreated hstarted)

theorem Doubt.grow (hg : x.Grows x') (hJ : J.Grows J') (hle : started ≤ x.moment)
    (h : Doubt cfg x started J w) : Doubt cfg x' started J' w := by
  intro v hv m hm hcreated hstarted hnames
  rw [hJ.created] at hcreated
  rw [hJ.scopeEpoch]
  have hold := hg.updates hv hm (by omega)
  exact (h v hold m hm hcreated hstarted hnames).trans_le (hg.scopeEpoch cfg w)

theorem Clear.grow (hg : x.Grows x') (hJ : J.Grows J') (hle : started ≤ x.moment)
    (h : Clear x started J w) : Clear x' started J' w := by
  intro v hv m hm hcreated hstarted
  rw [hJ.created] at hcreated
  exact h v (hg.updates hv hm (by omega)) m hm hcreated hstarted

theorem Fenced.grow (hg : x.Grows x') (hJ : J.Grows J') (hupdates : x'.updates = x.updates)
    (h : Fenced cfg x J) : Fenced cfg x' J' := by
  have hepoch := hg.epoch
  have hscope := hg.scopeEpoch cfg J.ask.username
  refine ⟨?_, ?_, fun hv hreached => ?_⟩
  · rw [hJ.epoch]
    exact h.epoch.trans hepoch
  · rw [hJ.scopeEpoch, hJ.ask]
    exact h.scopeEpoch.trans hscope
  · rw [hJ.ask] at hreached ⊢
    rw [hJ.created, hJ.epoch, hJ.scopeEpoch]
    rcases h.reached (hupdates ▸ hv) hreached with hdone | hlt | hlt
    · exact .inl hdone
    · exact .inr (.inl (hlt.trans_le hepoch))
    · exact .inr (.inr (hlt.trans_le hscope))

/-! ## Decisions and calls -/

/-- A grant was read from a reply to its job. -/
def Backed (cfg : Config) (J : Job) (d : Decision) : Prop :=
  d.result = .success → ∃ reply ∈ J.replies, cfg.Vouches reply d

theorem Backed.grow (hJ : J.Grows J') (h : Backed cfg J d) : Backed cfg J' d := by
  intro hsuccess
  obtain ⟨reply, hmem, hv⟩ := h hsuccess
  exact ⟨reply, hJ.replies hmem, hv⟩

theorem backed_of_ne (h : d.result ≠ .success) : Backed cfg J d := fun hsuccess =>
  absurd hsuccess h

/-- A call at a job asks what the job asks. -/
structure Serves (cfg : Config) (started : Nat) (r : Request) (J : Job) : Prop where
  asked : ∃ r', J.ask = .authorize r' ∧ cfg.identity r' = cfg.identity r
  own : J.key = none → started ≤ J.created

theorem Serves.username (h : Serves cfg started r J) : J.ask.username = r.user.username := by
  obtain ⟨r', hask, hid⟩ := h.asked
  rw [hask]
  exact congrArg (·.2.1) hid

theorem Serves.grow (hJ : J.Grows J') (h : Serves cfg started r J) : Serves cfg started r J' := by
  refine ⟨?_, ?_⟩
  · rw [hJ.ask]
    exact h.asked
  · rw [hJ.key, hJ.created]
    exact h.own

def Granted (cfg : Config) (x : Sys) (started : Nat) (r : Request) (now : Nat) (cached : Bool)
    (d : Decision) : Prop :=
  d.result = .success → ∃ J ∈ x.jobs, ∃ reply, Grant cfg x started r now cached J reply

theorem granted_of_ne {cached} (h : d.result ≠ .success) :
    Granted cfg x started r now cached d := fun hsuccess => absurd hsuccess h

theorem Granted.grow (hg : x.Grows x') (hle : started ≤ x.moment) {cached : Bool}
    (h : Granted cfg x started r now cached d) : Granted cfg x' started r now cached d := by
  intro hsuccess
  obtain ⟨J, hmem, reply, hgrant⟩ := h hsuccess
  obtain ⟨j, hj⟩ := List.getElem?_of_mem hmem
  obtain ⟨J', hj', hJ⟩ := hg.jobs hj
  refine ⟨J', List.mem_of_getElem? hj', reply, ?_, hJ.replies hgrant.replied, hgrant.allows,
    hgrant.session.grow hg, hgrant.decision.grow hg, ?_, fun hv hm hcreated hstarted => ?_⟩
  · rw [hJ.ask]
    exact hgrant.asked
  · rw [hJ.started]
    exact hgrant.age
  · rw [hJ.created] at hcreated
    exact hgrant.current (hg.updates hv hm (by omega)) hm hcreated hstarted

def At (cfg : Config) (x : Sys) (started : Nat) (r : Request) (j : Nat) (P : Job → Prop) : Prop :=
  ∃ J, x.jobs[j]? = some J ∧ Serves cfg started r J ∧ P J

theorem At.grow {P P' : Job → Prop} (hg : x.Grows x') (hP : ∀ {J J'}, J.Grows J' → P J → P' J')
    (h : At cfg x started r j P) : At cfg x' started r j P' := by
  obtain ⟨J, hj, hs, hp⟩ := h
  obtain ⟨J', hj', hJ⟩ := hg.jobs hj
  exact ⟨J', hj', hs.grow hJ, hP hJ hp⟩

def Held (cfg : Config) (x : Sys) (started : Nat) (r : Request) (cached : Cached) : Prop :=
  ∀ d now, cached = some (d, now) → Granted cfg x started r now true d

def StageOk (cfg : Config) (x : Sys) (started : Nat) (r : Request) : Stage → Prop
  | .idle | .entering | .fetching _ | .opening _ => True
  | .timing key | .loading key _ => cfg.key r = some key
  | .scoping key _ epoch => cfg.key r = some key ∧ epoch ≤ x.epoch
  | .looking key _ epoch scopeEpoch =>
    cfg.key r = some key ∧ epoch ≤ x.epoch ∧ scopeEpoch ≤ x.scopeEpoch cfg r.user.username
  | .filling j cached | .failing j cached _ | .failed j _ cached _ =>
    At cfg x started r j (fun _ => True) ∧ Held cfg x started r cached
  | .fencing _ _ created _ => started ≤ created
  | .posting _ j | .awaiting j | .waiting j | .parked j | .lastLook j | .polling j | .held j =>
    At cfg x started r j fun _ => True
  | .validating j d => At cfg x started r j fun J => Backed cfg J d
  | .validatingScope j d =>
    At cfg x started r j fun J => Backed cfg J d ∧ Doubt cfg x started J r.user.username
  | .expiring j d =>
    At cfg x started r j fun J => Backed cfg J d ∧ Clear x started J r.user.username
  | .pollingScope j => At cfg x started r j fun J => Doubt cfg x started J r.user.username
  | .pollingJob j => At cfg x started r j fun J => Clear x started J r.user.username
  | .rechecking _ _ d now | .recheckingScope _ _ d now => Granted cfg x started r now false d
  | .returned d now cached => Granted cfg x started r now cached d

theorem StageOk.grow (hg : x.Grows x') (hle : started ≤ x.moment) {stage : Stage}
    (h : StageOk cfg x started r stage) : StageOk cfg x' started r stage := by
  cases stage with
  | idle | entering | fetching _ | opening _ => trivial
  | timing _ | loading _ _ | fencing _ _ _ _ => exact h
  | scoping _ _ _ => exact ⟨h.1, h.2.trans hg.epoch⟩
  | looking _ _ _ _ => exact ⟨h.1, h.2.1.trans hg.epoch, h.2.2.trans (hg.scopeEpoch cfg _)⟩
  | filling _ _ | failing _ _ _ | failed _ _ _ _ =>
    exact ⟨h.1.grow hg fun _ hp => hp, fun d now he => (h.2 d now he).grow hg hle⟩
  | posting _ _ | awaiting _ | waiting _ | parked _ | lastLook _ | polling _ | held _ =>
    exact At.grow hg (fun _ hp => hp) h
  | validating _ _ => exact At.grow hg (fun hJ hp => hp.grow hJ) h
  | validatingScope _ _ | expiring _ _ =>
    exact At.grow hg (fun hJ hp => ⟨hp.1.grow hJ, hp.2.grow hg hJ hle⟩) h
  | pollingScope _ => exact At.grow hg (fun hJ hp => Doubt.grow hg hJ hle hp) h
  | pollingJob _ => exact At.grow hg (fun hJ hp => Clear.grow hg hJ hle hp) h
  | rechecking _ _ _ _ | recheckingScope _ _ _ _ | returned _ _ _ => exact Granted.grow hg hle h

def Stage.Harmless : Stage → Prop
  | .failed _ d _ _ => d.result ≠ .success
  | _ => True

structure CallOk (cfg : Config) (x : Sys) (k : Call) : Prop where
  stage : ∀ {r}, k.ask = .authorize r → StageOk cfg x k.started r k.stage
  harmless : k.stage.Harmless
  started : k.started ≤ x.moment

theorem CallOk.grow (hg : x.Grows x') {k : Call} (h : CallOk cfg x k) : CallOk cfg x' k :=
  ⟨fun hask => (h.stage hask).grow hg h.started, h.harmless, h.started.trans hg.moment⟩

/-! ## The cache, jobs and workers -/

/-- An entry of the cache has the fence of the job that fetched it and ends with it. -/
structure EntryOk (cfg : Config) (x : Sys) (key : Str) (e : CacheEntry) (J : Job) (r : Request) :
    Prop where
  key : J.key = some key
  ask : J.ask = .authorize r
  epoch : e.epoch = J.epoch
  scopeEpoch : e.scopeEpoch = J.scopeEpoch
  backed : Backed cfg J e.decision
  age : e.expires ≤ J.started + e.decision.maxAgeMs
  session : x.Ends e.expires (cfg.sessionExpiry r.user.session)
  decision : x.Ends e.expires e.decision.expiresAt

def Stored (cfg : Config) (x : Sys) (key : Str) (e : CacheEntry) : Prop :=
  ∃ (j : Nat) (J : Job) (r : Request), x.jobs[j]? = some J ∧ EntryOk cfg x key e J r

theorem Stored.grow (hg : x.Grows x') {key : Str} {e : CacheEntry} (h : Stored cfg x key e) :
    Stored cfg x' key e := by
  obtain ⟨j, J, r, hj, he⟩ := h
  obtain ⟨J', hj', hJ⟩ := hg.jobs hj
  refine ⟨j, J', r, hj', hJ.key.trans he.key, hJ.ask.trans he.ask, he.epoch.trans hJ.epoch.symm,
    he.scopeEpoch.trans hJ.scopeEpoch.symm, he.backed.grow hJ, ?_, he.session.grow hg,
    he.decision.grow hg⟩
  rw [hJ.started]
  exact he.age

structure JobOk (cfg : Config) (x : Sys) (J : Job) : Prop where
  finished : ∀ {d}, J.finished = some d → Backed cfg J d
  shared : ∀ {key}, J.key = some key →
    (∃ r, J.ask = .authorize r ∧ cfg.key r = some key) ∧ Fenced cfg x J

def Pending (x : Sys) (key : Str) (j : Nat) : Prop :=
  ∃ J, x.jobs[j]? = some J ∧ J.key = some key

theorem Pending.grow (hg : x.Grows x') {key : Str} (h : Pending x key j) : Pending x' key j := by
  obtain ⟨J, hj, hkey⟩ := h
  obtain ⟨J', hj', hJ⟩ := hg.jobs hj
  exact ⟨J', hj', hJ.key.trans hkey⟩

def Delivers (cfg : Config) (x : Sys) (j : Nat) (d : Decision) : Prop :=
  ∃ J, x.jobs[j]? = some J ∧ Backed cfg J d

theorem Delivers.grow (hg : x.Grows x') (h : Delivers cfg x j d) : Delivers cfg x' j d := by
  obtain ⟨J, hj, hb⟩ := h
  obtain ⟨J', hj', hJ⟩ := hg.jobs hj
  exact ⟨J', hj', hb.grow hJ⟩

def WorkerOk (cfg : Config) (x : Sys) : Worker → Prop
  | .idle => True
  | .gathering j => j < x.jobs.length
  | .sending batch => ∀ j ∈ batch, j < x.jobs.length
  | .delivering results => ∀ p ∈ results, Delivers cfg x p.1 p.2
  | .finishing j d rest => Delivers cfg x j d ∧ ∀ p ∈ rest, Delivers cfg x p.1 p.2

theorem WorkerOk.grow (hg : x.Grows x') {w : Worker} (h : WorkerOk cfg x w) :
    WorkerOk cfg x' w := by
  cases w with
  | idle => trivial
  | gathering j => exact hg.length h
  | sending batch => exact fun j hj => hg.length (h j hj)
  | delivering results => exact fun p hp => (h p hp).grow hg
  | finishing j d rest => exact ⟨h.1.grow hg, fun p hp => (h.2 p hp).grow hg⟩

end

end Mqtts.RemoteAuth

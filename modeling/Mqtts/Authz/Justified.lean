import Mqtts.Authz.Granted

/-!
# Grants are justified

The steps of the workers and of `update_version`, and the statement for runs in which the three gaps
of the code do not open: a call does not take its answer from a job after its session has ended, no
job is made while an update for its user is on the way, and no update names users under the revision
that is there already.
-/

namespace Mqtts.RemoteAuth

open Option List Function Sys

namespace Inv

variable {cfg : Config} {x x' : Sys} {c j w : Nat} {r : Request} {J J' : Job} {d : Decision}

/-! ## Workers -/

theorem setWorker (h : Inv cfg x) {worker} (hw : WorkerOk cfg x worker) :
    Inv cfg (x.setWorker w worker) := by
  refine h.frame_same rfl rfl rfl rfl rfl rfl rfl .inl .inl (fun _ => .inl) (fun i => ?_)
    (fun _ => .inl rfl)
  by_cases hi : i = w
  · subst hi
    right
    show WorkerOk cfg _ (update x.workers i worker i)
    rw [update_self]
    exact hw.grow (.same_jobs rfl rfl rfl rfl rfl rfl rfl : x.Grows (x.setWorker i worker))
  · exact .inl (update_of_ne hi _ _)

theorem take (h : Inv cfg x) (hstep : x.take cfg w = some x') : Inv cfg x' := by
  unfold Sys.take at hstep
  split at hstep
  · rename_i j rest hworker hqueue
    obtain ⟨J, hj, rfl⟩ := map_eq_some_iff.1 hstep
    have hlt : j < x.jobs.length := (List.getElem?_eq_some_iff.1 hj).1
    have h₁ : Inv cfg { x with queue := rest } :=
      h.setQueue fun i hi => .inl (hqueue ▸ mem_cons_of_mem _ hi)
    simp only
    split
    · exact h₁.setWorker hlt
    · refine h₁.setWorker fun i hi => ?_
      rw [mem_singleton.1 hi]
      exact hlt
  · cases hstep

theorem gatherFrom_mem (x : Sys) (cfg : Config) : ∀ batch bytes
    queue, (∀ i ∈ (x.gatherFrom cfg batch bytes queue).1, i ∈ batch ∨ i ∈ queue) ∧
      ∀ i ∈ (x.gatherFrom cfg batch bytes queue).2, i ∈ queue
  | batch, bytes, [] => ⟨fun _ hi => .inl hi, fun _ hi => hi⟩
  | batch, bytes, j :: rest => by
    unfold gatherFrom
    split
    · exact ⟨fun _ hi => .inl hi, fun _ hi => hi⟩
    split
    · obtain ⟨hbatch, hrest⟩ := gatherFrom_mem x cfg (batch ++ [j]) _ rest
      refine ⟨fun i hi => ?_, fun i hi => mem_cons_of_mem _ (hrest i hi)⟩
      rcases hbatch i hi with hmem | hmem
      · rcases mem_append.1 hmem with hold | hnew
        · exact .inl hold
        · exact .inr (mem_singleton.1 hnew ▸ mem_cons_self)
      · exact .inr (mem_cons_of_mem _ hmem)
    · exact ⟨fun _ hi => .inl hi, fun _ hi => hi⟩

theorem gather (h : Inv cfg x) (hstep : x.gather cfg w = some x') : Inv cfg x' := by
  unfold Sys.gather at hstep
  split at hstep
  · obtain ⟨J, hj, rfl⟩ := map_eq_some_iff.1 hstep
    rename_i j hworker
    have hlt : j < x.jobs.length := (List.getElem?_eq_some_iff.1 hj).1
    obtain ⟨hbatch, hrest⟩ := gatherFrom_mem x cfg [j] (J.body.length + 32) x.queue
    refine (h.setQueue fun i hi => .inl (hrest i hi)).setWorker fun i hi => ?_
    rcases hbatch i hi with hmem | hmem
    · rw [mem_singleton.1 hmem]
      exact hlt
    · exact h.queue i hmem
  · cases hstep

theorem receive (h : Inv cfg x) {response}
    (hstep : x.receive cfg w response = some x') : Inv cfg x' := by
  unfold Sys.receive at hstep
  split at hstep
  · rename_i batch hworker
    have hbatch : ∀ j ∈ batch, j < x.jobs.length := by
      have hok := h.workers w
      rw [hworker] at hok
      exact hok
    cases hstep
    set replies : Nat → List Reply := fun n =>
      (batch.zipIdx.filter (·.1 = n)).flatMap fun b => response.addressed b.2
    set jobs : List Job := x.jobs.mapIdx fun n J => { J with replies := J.replies ++ replies n }
    have hgrows : ∀ (J : Job) (n : Nat), J.Grows { J with replies := J.replies ++ replies n } :=
      fun J n => ⟨rfl, rfl, rfl, rfl, rfl, rfl, fun _ hm => mem_append_left _ hm⟩
    have hat : ∀ {j : Nat} {J : Job}, x.jobs[j]? = some J →
        jobs[j]? = some { J with replies := J.replies ++ replies j } := fun hj => by
      simp [jobs, hj]
    have hg : x.Grows { x with jobs := jobs } :=
      .of_jobs (fun hj => ⟨_, hat hj, hgrows _ _⟩) rfl rfl rfl rfl rfl rfl
    have h₁ : Inv cfg { x with jobs := jobs } := by
      refine h.frame hg (fun {j J'} hj => .inl ?_) (fun hf hJ => hf.grow hg hJ rfl) h.updates
        .inl .inl (fun i hi => .inl hi) (fun _ => .inl rfl) fun _ => .inl rfl
      simp only [jobs, List.getElem?_mapIdx, map_eq_some_iff] at hj
      obtain ⟨J, hJ, rfl⟩ := hj
      exact ⟨J, hJ, hgrows _ _, fun _ hd => .inl hd⟩
    refine h₁.setWorker fun p hp => ?_
    obtain ⟨i, hi⟩ := List.getElem?_of_mem hp
    obtain ⟨hij, hid⟩ := List.getElem?_zip_eq_some.1 hi
    have hjob := List.getElem?_eq_getElem (hbatch p.1 (mem_of_getElem? hij))
    refine ⟨_, hat hjob, fun hsuccess => ?_⟩
    rcases hread : cfg.read x.wall batch.length _ response with _ | ds
    · rw [hread, getD_none] at hid
      have hempty : p.2 = {} := eq_of_mem_replicate (mem_of_getElem? hid)
      rw [hempty] at hsuccess
      cases hsuccess
    · rw [hread, getD_some] at hid
      obtain ⟨reply, hreply, hvouches⟩ := Config.read_success hread hid hsuccess
      refine ⟨reply, mem_append_right _ (mem_flatMap.2 ⟨(p.1, i), ?_, hreply⟩), hvouches⟩
      rw [mem_filter, mem_zipIdx_iff_getElem?]
      exact ⟨hij, by simp⟩
  · cases hstep

theorem deliver (h : Inv cfg x) (hstep : x.deliver cfg w = some x') : Inv cfg x' := by
  unfold Sys.deliver at hstep
  split at hstep
  · rename_i j d rest hworker
    have hok := h.workers w
    rw [hworker] at hok
    obtain ⟨J, hj, rfl⟩ := map_eq_some_iff.1 hstep
    obtain ⟨J', hj', hb⟩ := hok (j, d) mem_cons_self
    cases hj.symm.trans hj'
    have hb' : Backed cfg J (if cfg.grpcMode ∧ x.mono ≥ J.deadline then {} else d) := by
      split_ifs
      · exact backed_of_ne fun h => by cases h
      · exact hb
    refine (h.complete hj hb').setWorker ⟨?_, fun p hp => ?_⟩
    all_goals
      have hg : x.Grows (x.complete cfg J
          (if cfg.grpcMode ∧ x.mono ≥ J.deadline then {} else d)).1 := by
        rcases x.complete_eq_setShard cfg J _ with heq | ⟨i, shard, heq⟩ <;> rw [heq]
        · exact .same_jobs rfl rfl rfl rfl rfl rfl rfl
        · exact x.grows_setShard i shard
    · exact Delivers.grow hg ⟨J, hj, complete_backed hb'⟩
    · exact (hok p (mem_cons_of_mem _ hp)).grow hg
  · cases hstep
    exact h.setWorker trivial
  · cases hstep

theorem finish (h : Inv cfg x) (hstep : x.finish w = some x') : Inv cfg x' := by
  unfold Sys.finish at hstep
  split at hstep
  · rename_i j d rest hworker
    have hok := h.workers w
    rw [hworker] at hok
    cases hstep
    refine (h.conclude hok.1).setWorker fun p hp => (hok.2 p hp).grow ?_
    exact x.grows_setJob j fun J => ⟨rfl, rfl, rfl, rfl, rfl, rfl, fun _ hm => hm⟩
  · cases hstep

/-! ## Updates -/

variable {v : Update} {u : Nat}

theorem mem_modify {v'} {f : Update → Update} {l : List Update} (hv : l[u]? = some v)
    (hmem : v' ∈ l.modify u f) : v' ∈ l ∨ v' = f v := by
  obtain ⟨i, hi⟩ := List.getElem?_of_mem hmem
  rw [List.getElem?_modify] at hi
  obtain ⟨v₀, hv₀, heq⟩ := map_eq_some_iff.1 hi
  split_ifs at heq with hui
  · subst hui
    cases hv.symm.trans hv₀
    exact .inr heq.symm
  · exact .inl (heq ▸ mem_of_getElem? hv₀)

/-- An update changes one record, and what it has not counted up before it counts up now. -/
theorem changeUpdate (h : Inv cfg x) {epoch : Nat} {f : Update → Update} {scopes : Nat → Nat}
    {revision : Str} {shards : Nat → Shard} (hv : x.updates[u]? = some v)
    (hentries : ∀ i, (shards i).entries ⊆ (x.shards i).entries)
    (hpending : ∀ i, (shards i).pending = (x.shards i).pending) (hepoch : x.epoch ≤ epoch)
    (hscopes : ∀ s, x.scopes s ≤ scopes s) (hopen : v.completed = none)
    (hstamp : ∀ {m}, (f v).completed = some m → m = x.moment) (hok : (f v).Ok x.moment)
    (hreached : ∀ {username}, (f v).Reached username → v.Reached username ∨ x.epoch < epoch ∨
    x.scopeEpoch cfg username < scopes (cfg.scopeFor username)) :
    Inv cfg ({ x with
      epoch := epoch, scopes := scopes, revision := revision,
      shards := shards }.setUpdate u f) := by
  set x' := ({ x with
    epoch := epoch, scopes := scopes, revision := revision, shards := shards } : Sys).setUpdate u f
  have hmem : ∀ {v'}, v' ∈ x'.updates → v' ∈ x.updates ∨ v' = f v := fun hv' => mem_modify hv hv'
  have hg : x.Grows x' := by
    refine ⟨fun hj => ⟨_, hj, .refl _⟩, hepoch, hscopes, le_rfl, rfl, fun {v' m} hv' hm hlt => ?_⟩
    rcases hmem hv' with hold | rfl
    · exact hold
    · exact absurd (hstamp hm) hlt.ne
  refine h.frame hg (fun {j J'} hj => .inl ⟨J', hj, .refl _, fun _ hd => .inl hd⟩) ?_ ?_
    (fun {i _ _} he => .inl (hentries i he)) (fun {i _ _} hp => .inl (hpending i ▸ hp))
    (fun _ => .inl) (fun _ => .inl rfl) fun _ => .inl rfl
  · intro J J' hf hJ
    have hscope := hg.scopeEpoch cfg J.ask.username
    refine ⟨?_, ?_, fun {v'} hv' hreach => ?_⟩
    · rw [hJ.epoch]
      exact hf.epoch.trans hepoch
    · rw [hJ.scopeEpoch, hJ.ask]
      exact hf.scopeEpoch.trans hscope
    · rw [hJ.ask] at hreach ⊢
      rw [hJ.created, hJ.epoch, hJ.scopeEpoch]
      have hlater : J.epoch < x.epoch ∨ J.scopeEpoch < x.scopeEpoch cfg J.ask.username →
          J.epoch < epoch ∨ J.scopeEpoch < x'.scopeEpoch cfg J.ask.username :=
        Or.imp (·.trans_le hepoch) (·.trans_le hscope)
      rcases hmem hv' with hold | rfl
      · exact (hf.reached hold hreach).imp id hlater
      right
      rcases hreached hreach with hbefore | hlt | hlt
      · rcases hf.reached (mem_of_getElem? hv) hbefore with ⟨m, hm, -⟩ | hshown
        · rw [hopen] at hm
          cases hm
        · exact hlater hshown
      · exact .inl (hf.epoch.trans_lt hlt)
      · exact .inr (hf.scopeEpoch.trans_lt hlt)
  · intro v' hv'
    rcases hmem hv' with hold | rfl
    · exact h.updates v' hold
    · exact hok

theorem ok_of_open {moment} (hnone : v.completed = none) (hstage : v.stage ≠ .done)
    (hmild : v.stage.Mild → v.full = false) : v.Ok moment where
  done hm := absurd (hnone.symm.trans hm) fun h => by cases h
  completed hdone := absurd hdone hstage
  mild := hmild

theorem ok_of_done {moment} (hstage : v.stage = .done) (hdone : v.completed = some moment) :
    v.Ok moment where
  done hm := ⟨hstage, (Option.some.inj (hdone.symm.trans hm)).ge⟩
  completed _ := by rw [hdone]; rfl
  mild hmild := by
    rw [hstage] at hmild
    exact hmild.elim

theorem apply (h : Inv cfg x)
    (hnew : ∀ v, x.updates[u]? = some v → v.stage = .comparing → v.invalidated = [] ∨ v.value ≠
    x.revision) (hstep : x.apply cfg u = some x') : Inv cfg x' := by
  obtain ⟨v, hv, hstep⟩ := bind_eq_some_iff.1 hstep
  have hok := h.updates v (mem_of_getElem? hv)
  have hopen : v.stage ≠ .done → v.completed = none := fun hne => by
    rcases hc : v.completed with _ | m
    · rfl
    · exact absurd (hok.done hc).1 hne
  generalize hstage : v.stage = stage at hopen hstep
  cases stage with
  | comparing =>
    have hnone := hopen (fun h => by cases h)
    have hfull := hok.mild (by rw [hstage]; trivial)
    split_ifs at hstep with hsame hdelta <;> cases hstep
    · refine h.changeUpdate hv (fun _ _ he => he)
        (fun _ => rfl) le_rfl (fun _ => le_rfl) hnone (fun hm => (Option.some.inj hm).symm)
        (ok_of_done rfl rfl)
        (fun {username} hr => ?_)
      have hnames : v.full ∨ username ∈ v.invalidated := hr
      rcases hnew v hv hstage with hnil | hne
      · simp [hfull, hnil] at hnames
      · exact absurd hsame.symm hne
    · refine h.changeUpdate hv (fun _ _ he => he)
        (fun _ => rfl) le_rfl (fun _ => le_rfl) hnone (fun hm => by cases hnone.symm.trans hm)
        (ok_of_open hnone (fun h => by cases h) (fun _ => hfull)) (fun hr => absurd hr.1 hr.2)
    · refine h.changeUpdate hv (fun _ _ he => he)
        (fun _ => rfl) le_rfl (fun _ => le_rfl) hnone (fun hm => by cases hnone.symm.trans hm)
        (ok_of_open hnone (fun h => by cases h) (·.elim)) (·.elim)
  | naming names =>
    have hnone := hopen (fun h => by cases h)
    have hfull := hok.mild (by rw [hstage]; trivial)
    cases names with
    | nil =>
      cases hstep
      refine h.changeUpdate hv (fun _ _ he => he)
        (fun _ => rfl) le_rfl (fun _ => le_rfl) hnone (fun hm => (Option.some.inj hm).symm)
        (ok_of_done rfl rfl)
        (fun {username} hr => .inl ?_)
      have hnames : v.full ∨ username ∈ v.invalidated := hr
      rw [Update.Reached, hstage]
      exact ⟨hnames.resolve_left (by simp [hfull]), not_mem_nil⟩
    | cons name rest =>
      cases hstep
      have hscopes : ∀ s, x.scopes s ≤
          update x.scopes (cfg.scopeFor name) (x.scopes (cfg.scopeFor name) + 1) s := fun s => by
        rw [update_apply]
        split_ifs with hs
        · subst hs
          exact Nat.le_succ _
        · exact le_rfl
      refine h.changeUpdate hv (fun _ _ he => he)
        (fun _ => rfl) le_rfl hscopes hnone (fun hm => by cases hnone.symm.trans hm)
        (ok_of_open hnone (fun h => by cases h) (fun _ => hfull)) (fun {username} hr => ?_)
      by_cases heq : username = name
      · right
        right
        subst heq
        show x.scopes _ < update x.scopes _ _ (cfg.scopeFor username)
        rw [update_self]
        exact Nat.lt_succ_self _
      · left
        rw [Update.Reached, hstage]
        exact ⟨hr.1, fun hmem => (mem_cons.1 hmem).elim heq hr.2⟩
  | replacing =>
    have hnone := hopen (fun h => by cases h)
    cases hstep
    refine h.changeUpdate hv (fun _ _ he => he)
      (fun _ => rfl) le_rfl (fun _ => le_rfl) hnone (fun hm => by cases hnone.symm.trans hm)
      (ok_of_open hnone (fun h => by cases h) (·.elim)) (·.elim)
  | advancing =>
    have hnone := hopen (fun h => by cases h)
    cases hstep
    refine h.changeUpdate hv (fun _ _ he => he)
      (fun _ => rfl) (Nat.le_succ _) (fun _ => le_rfl) hnone
        (fun hm => by cases hnone.symm.trans hm)
      (ok_of_open hnone (fun h => by cases h) (·.elim))
      (fun _ => .inr (.inl (Nat.lt_succ_self _)))
  | clearing i =>
    dsimp only at hstep
    have hnone := hopen (fun h => by cases h)
    have hbefore : ∀ {username}, v.Reached username := fun {username} => by
      rw [Update.Reached, hstage]
      trivial
    have hentries : ∀ i', ((x.setShard i { x.shards i with entries := [] }).shards i').entries ⊆
        (x.shards i').entries := fun i' e he => by
      change e ∈ (update x.shards i _ i').entries at he
      rw [update_apply] at he
      split_ifs at he with hi
      · exact absurd he not_mem_nil
      · exact he
    have hpending : ∀ i', ((x.setShard i { x.shards i with entries := [] }).shards i').pending =
        (x.shards i').pending := fun i' => by
      change (update x.shards i _ i').pending = _
      rw [update_apply]
      split_ifs with hi
      · rw [hi]
      · rfl
    split_ifs at hstep with hmore <;> cases hstep
    · refine h.changeUpdate hv hentries hpending le_rfl
        (fun _ => le_rfl) hnone (fun hm => by cases hnone.symm.trans hm)
        (ok_of_open hnone (fun h => by cases h) (·.elim)) (fun _ => .inl hbefore)
    · exact h.changeUpdate hv hentries hpending le_rfl
        (fun _ => le_rfl) hnone (fun hm => (Option.some.inj hm).symm)
        (ok_of_done rfl rfl)
        (fun _ => .inl hbefore)
  | done => cases hstep

/-! ## Runs -/

theorem bump (h : Inv cfg x) : Inv cfg { x with moment := x.moment + 1 } := by
  have hg : x.Grows { x with moment := x.moment + 1 } :=
    ⟨fun hj => ⟨_, hj, .refl _⟩, le_rfl, fun _ => le_rfl, Nat.le_succ _, rfl, fun hv _ _ => hv⟩
  refine h.frame hg (fun {j J'} hj => .inl ⟨J', hj, .refl _, fun _ hd => .inl hd⟩)
    (fun hf hJ => hf.grow hg hJ rfl) (fun v hv => ?_) .inl .inl (fun _ => .inl)
    (fun _ => .inl rfl) (fun _ => .inl rfl)
  have hok := h.updates v hv
  exact ⟨fun hm => ⟨(hok.done hm).1, (hok.done hm).2.trans (Nat.le_succ _)⟩, hok.completed,
    hok.mild⟩

theorem tick (h : Inv cfg x) (ms : Nat) :
    Inv cfg { x with mono := x.mono + ms, wall := x.wall + ms } := by
  have hg : x.Grows { x with mono := x.mono + ms, wall := x.wall + ms } := by
    refine ⟨fun hj => ⟨_, hj, .refl _⟩, le_rfl, fun _ => le_rfl, le_rfl, ?_, fun hv _ _ => hv⟩
    show x.mono + (x.wall + ms) = x.mono + ms + x.wall
    omega
  exact h.frame hg (fun {j J'} hj => .inl ⟨J', hj, .refl _, fun _ hd => .inl hd⟩)
    (fun hf hJ => hf.grow hg hJ rfl) h.updates .inl .inl (fun _ => .inl) (fun _ => .inl rfl)
    (fun _ => .inl rfl)

theorem update (h : Inv cfg x) (value : Str) (invalidated : List Str) (delta : Bool) :
    Inv cfg { x with updates := x.updates ++
      [{ value := value, invalidated := invalidated, delta := delta }] } := by
  set v : Update := { value := value, invalidated := invalidated, delta := delta }
  have hmem : ∀ {v'}, v' ∈ x.updates ++ [v] → v' ∈ x.updates ∨ v' = v := fun hv' =>
    (mem_append.1 hv').imp id mem_singleton.1
  have hg : x.Grows { x with updates := x.updates ++ [v] } := by
    refine ⟨fun hj => ⟨_, hj, .refl _⟩, le_rfl, fun _ => le_rfl, le_rfl, rfl, fun hv' hm _ => ?_⟩
    rcases hmem hv' with hold | rfl
    · exact hold
    · cases hm
  refine h.frame hg (fun {j J'} hj => .inl ⟨J', hj, .refl _, fun _ hd => .inl hd⟩)
    (fun hf hJ => ?_) (fun v' hv' => ?_) .inl .inl (fun _ => .inl) (fun _ => .inl rfl)
    (fun _ => .inl rfl)
  · obtain ⟨hask, -, -, hepoch, hscope, hcreated, -⟩ := hJ
    refine ⟨by rw [hepoch]; exact hf.epoch, by rw [hscope, hask]; exact hf.scopeEpoch,
      fun hv' hreached => ?_⟩
    rw [hask] at hreached ⊢
    rw [hcreated, hepoch, hscope]
    rcases hmem hv' with hold | rfl
    · exact hf.reached hold hreached
    · exact hreached.elim
  · rcases hmem hv' with hold | rfl
    · exact h.updates v' hold
    · exact ok_of_open rfl (fun h => by cases h) (fun _ => rfl)

theorem fresh (hx : x.Fresh) : Inv cfg x := by
  obtain ⟨mono, wall, rfl⟩ := hx
  exact
    { jobs := fun hj => (by cases hj)
      updates := fun v hv => (by cases hv)
      entries := fun he => (by cases he)
      pending := fun hp => (by cases hp)
      queue := fun j hj => (by cases hj)
      workers := fun w => trivial
      calls := fun c => ⟨fun hask => (by cases hask), trivial, le_rfl⟩ }

end Inv

def Sys.makes (cfg : Config) (x : Sys) (key : Str) (now : Nat) (username : Str) : Bool :=
  (x.usable cfg key now username).all (fun e => !e.settled now) &&
    ((x.shards (shardOf key)).pending.lookup key).isNone &&
      (x.shards (shardOf key)).pending.length < cfg.queueCapacity + cfg.workerCount

/-- No job is made while an update for its user is on the way, no call takes its answer from
a job when its session is over, and no update names users under the revision that is
there. -/
def Event.Timely (cfg : Config) (x : Sys) : Event → Prop
  | .advance c =>
    match (x.calls c).ask, (x.calls c).stage with
    | .authorize r, .looking key now _ _ =>
      x.makes cfg key now r.user.username → ∀ v ∈ x.updates, ¬ v.Midway r.user.username
    | .authorize r, .expiring _ _ | .authorize r, .pollingJob _ => x.sessionOver cfg r = false
    | _, _ => True
  | .apply u =>
    match x.updates[u]? with
    | some v => v.stage = .comparing → v.invalidated = [] ∨ v.value ≠ x.revision
    | none => True
  | _ => True

instance (v : Update) (username : Str) : Decidable (v.Names username) :=
  inferInstanceAs (Decidable (_ ∨ _))

instance (v : Update) (username : Str) : Decidable (v.Reached username) := by
  unfold Update.Reached
  split <;> infer_instance

instance (v : Update) (username : Str) : Decidable (v.Midway username) :=
  inferInstanceAs (Decidable (_ ∧ _))

instance (cfg : Config) (x : Sys) (e : Event) : Decidable (e.Timely cfg x) := by
  unfold Event.Timely
  split
  · split <;> infer_instance
  · split <;> infer_instance
  · infer_instance

namespace Inv

variable {cfg : Config} {x x' : Sys} {c : Nat}

section

variable (h : Inv cfg x)
include h

theorem advanceCall (hok : (Event.advance c).Timely cfg x)
    (hstep : x.advanceCall cfg c = some x') : Inv cfg x' := by
  unfold Sys.advanceCall at hstep
  simp only at hstep
  split at hstep
  · rename_i r hstage hask
    cases hstep
    exact h.enter hask
  · rename_i key hstage
    cases hstep
    exact h.restage hstage id trivial
  · rename_i key now hstage
    cases hstep
    exact h.restage hstage (fun hs => ⟨hs, le_rfl⟩) trivial
  · rename_i key now epoch hstage
    cases hstep
    refine h.setStage (fun hask => ?_) trivial
    obtain ⟨hkey, hepoch⟩ := h.stageOk hstage hask
    exact ⟨hkey, hepoch, by rw [hask]; exact le_rfl⟩
  · rename_i key now epoch scopeEpoch r hstage hask
    cases hstep
    have hs := h.stageOk hstage hask
    refine h.look hask hs.1 hs.2.1 hs.2.2 fun hall hnone hroom => ?_
    simp only [Event.Timely, hask, hstage] at hok
    exact hok (by simp [makes, hall, hnone, hroom])
  · rename_i j cached r hstage hask
    cases hstep
    exact h.fill hask hstage
  · cases hstep
    exact h.begin
  · rename_i f hstage
    cases hstep
    exact h.setStage (fun _ => (h.calls c).started) trivial
  · rename_i f started created epoch hstage
    cases hstep
    exact h.fence hstage
  · cases hstep

theorem advance (hok : (Event.advance c).Timely cfg x)
    (hstep : x.advance cfg c = some x') : Inv cfg x' := by
  unfold Sys.advance at hstep
  split at hstep
  · rename_i j hjob
    obtain ⟨J, hj, hstep⟩ := bind_eq_some_iff.1 hstep
    refine h.advanceJob hj hjob (fun r hask hstage => ?_) hstep
    rcases hstage with ⟨d, hstage⟩ | hstage <;> simpa only [Event.Timely, hask, hstage] using hok
  · exact h.advanceCall hok hstep

theorem next {e} (hok : e.Timely cfg x) (hstep : x.next cfg e = some x') : Inv cfg x' := by
  cases e with
  | tick ms =>
    cases hstep
    exact h.tick ms
  | authorize | authenticate =>
    simp only [Sys.next] at hstep
    split at hstep <;> cases hstep
    exact h.setCall ⟨fun _ => trivial, trivial, le_rfl⟩
  | advance c => exact h.advance hok hstep
  | refuse c =>
    simp only [Sys.next] at hstep
    split at hstep
    · split at hstep <;> cases hstep
      exact h.settle_empty
    · cases hstep
  | poll c =>
    simp only [Sys.next] at hstep
    split at hstep
    · rename_i j r hstage hask
      split at hstep <;> cases hstep
      · exact h.refused fun h => by cases h
      · exact h.restage hstage id trivial
    · cases hstep
  | take w => exact h.take hstep
  | gather w => exact h.gather hstep
  | receive w response => exact h.receive hstep
  | deliver w => exact h.deliver hstep
  | finish w => exact h.finish hstep
  | update value invalidated delta =>
    cases hstep
    exact h.update value invalidated delta
  | apply u =>
    refine h.apply (fun v hv hstage => ?_) hstep
    simp only [Event.Timely, hv] at hok
    exact hok hstage

/-- A timely step keeps the invariant. -/
theorem step {e} (hok : e.Timely cfg x) (hstep : x.step cfg e = some x') : Inv cfg x' := by
  obtain ⟨x₁, hnext, rfl⟩ := map_eq_some_iff.1 hstep
  exact (h.next hok hnext).bump

theorem justified : x.Justified cfg := by
  intro c r d now cached hask hstage hsuccess
  exact h.stageOk hstage hask hsuccess

end

end Inv

/-! ## Failed refreshes -/

theorem entries_complete {cfg} {x : Sys} {J d i key e'} (hd : d.authoritative = false)
    (he : (key, e') ∈ ((x.complete cfg J d).1.shards i).entries) :
    ∃ e, (key, e) ∈ (x.shards i).entries ∧ e'.decision = e.decision ∧ e'.expires = e.expires ∧
      e'.freshUntil = e.freshUntil := by
  unfold complete at he
  split at he
  · exact ⟨e', he, rfl, rfl, rfl⟩
  rename_i key' hkey
  have hat : ∀ shard, ((x.setShard (shardOf key') shard).shards i) =
      if i = shardOf key' then shard else x.shards i := fun shard => update_apply ..
  split_ifs at he <;> rw [hat] at he
  · split_ifs at he with hi
    · exact ⟨e', hi ▸ he, rfl, rfl, rfl⟩
    · exact ⟨e', he, rfl, rfl, rfl⟩
  · split_ifs at he with hi
    · obtain ⟨e, hmem, heq⟩ := Inv.mem_holdOff he
      exact ⟨e, hi ▸ hmem, by rw [heq], by rw [heq], by rw [heq]⟩
    · exact ⟨e', he, rfl, rfl, rfl⟩

theorem unprolonged (cfg : Config) (x : Sys) : x.Unprolonged cfg := by
  intro event d x' i key e' hcompletes hd hstep he
  obtain ⟨x₁, hnext, rfl⟩ := map_eq_some_iff.1 hstep
  cases event with
  | advance c =>
    simp only [completes] at hcompletes
    split at hcompletes
    · rename_i j cached thrown hstage
      simp only [Sys.next, advance, hstage, Stage.job] at hnext
      obtain ⟨J, hj, hnext⟩ := bind_eq_some_iff.1 hnext
      cases hnext
      exact entries_complete rfl he
    · cases hcompletes
  | deliver w =>
    simp only [completes] at hcompletes
    split at hcompletes
    · rename_i j d₀ rest hworker
      obtain ⟨J, hj, rfl⟩ := map_eq_some_iff.1 hcompletes
      simp only [Sys.next, deliver, hworker, hj, map_some, Option.some.injEq] at hnext
      subst hnext
      exact entries_complete hd he
    · cases hcompletes
  | _ => cases hcompletes

/-! ## The statement -/

/-- In a run of timely events every call that is granted access has a grant, and a refresh that
fails does not prolong an entry. -/
theorem grants_justified {cfg x}
    (h : Runs.Reach (step cfg) (fun x e => e.Timely cfg x) Sys.Fresh x) :
    x.Justified cfg ∧ x.Unprolonged cfg := by
  have hinv : Inv cfg x := by
    induction h with
    | start hs => exact .fresh hs
    | step _ hok hstep ih => exact ih.step hok hstep
  exact ⟨hinv.justified, unprolonged cfg x⟩

theorem injective_cons_zero : Function.Injective (List.cons (0 : UInt8)) := cons_injective

def sampleConfig : Config where
  freshLimit := 1000
  versioned := true
  hash :=
    { digest := List.cons 0
      injective := injective_cons_zero
      nonempty := fun _ => cons_ne_nil _ _ }
  body _ := some []
  scopeFor _ := 0
  sessionExpiry session := if session = 1 then 1000 else 0

def sampleRequest (session : Nat) : Request :=
  { user := { session := session, username := [117], clientId := [99] }, action := .publish,
    topic := [116] }

def askEvents (c session : Nat) : List Event :=
  .authorize c (sampleRequest session) false :: List.replicate 8 (.advance c)

def answerEvents (c : Nat) : List Event :=
  [.take 0, .receive 0 (.json { allow := true, cacheTtl := some 500, cacheRevision := some [1] }),
    .deliver 0, .finish 0, .deliver 0] ++ List.replicate 4 (.advance c)

def serveEvents (c session : Nat) : List Event :=
  .authorize c (sampleRequest session) false :: List.replicate 5 (.advance c)

def sampleGrant : Decision :=
  { result := .success, authoritative := true, freshMs := 500, maxAgeMs := 500, revision := [1] }

def Sys.afterTimely (events : List Event) : Sys :=
  (Runs.runOk (step sampleConfig) (fun x e => e.Timely sampleConfig x) {} events).getD {}

def cachedEvents : List Event := askEvents 0 2 ++ answerEvents 0 ++ serveEvents 1 2

theorem grants_justified_cached :
    ((afterTimely cachedEvents).calls 0).stage = .returned sampleGrant 0 false ∧
      ((afterTimely cachedEvents).calls 1).stage = .returned sampleGrant 0 true ∧
      (afterTimely cachedEvents).Justified sampleConfig ∧
      (afterTimely cachedEvents).Unprolonged sampleConfig := by
  have hrun : (Runs.runOk (step sampleConfig) (fun x e => e.Timely sampleConfig x) {}
      cachedEvents).isSome := by
    decide +kernel
  obtain ⟨x, hx⟩ := isSome_iff_exists.1 hrun
  have hstate : afterTimely cachedEvents = x := by
    rw [afterTimely, hx]
    rfl
  refine ⟨by decide +kernel, by decide +kernel, ?_⟩
  exact grants_justified (hstate ▸ Runs.reach_runOk (.start ⟨0, 0, rfl⟩) hx)

def lateEvents : List Event := [.tick 999] ++ askEvents 0 1 ++ [.tick 501] ++ answerEvents 0

def overlapEvents : List Event :=
  [.update [1] [] false] ++ List.replicate 4 (.apply 0) ++ askEvents 0 2 ++ answerEvents 0 ++
    List.replicate 15 (.apply 0) ++ serveEvents 1 2

def repeatedEvents : List Event :=
  [.update [1] [] false] ++ List.replicate 19 (.apply 0) ++ askEvents 0 2 ++ answerEvents 0 ++
    [.update [1] [[117]] true, .apply 1] ++ serveEvents 1 2

def Sys.after (events : List Event) : Sys :=
  (Runs.runOk (step sampleConfig) (fun _ _ => True) {} events).getD {}

theorem Sys.reach_after {events}
    (hrun : (Runs.runOk (step sampleConfig) (fun _ _ => True) {} events).isSome) :
    Runs.Reach (step sampleConfig) (fun _ _ => True) Sys.Fresh (after events) :=
  Runs.reach_runOk_getD {} (.start ⟨0, 0, rfl⟩) hrun

theorem Sys.not_justified {cfg} {x : Sys} {c r d now cached} (hask : (x.calls c).ask = .authorize r)
    (hstage : (x.calls c).stage = .returned d now cached) (hsuccess : d.result = .success)
    (hupdate : ∀ J ∈ x.jobs, ∃ v ∈ x.updates, v.Names r.user.username ∧
      (v.completed.any fun m => J.created < m && m < (x.calls c).started)) :
    ¬ x.Justified cfg := by
  intro h
  obtain ⟨J, hJ, reply, hgrant⟩ := h hask hstage hsuccess
  obtain ⟨v, hv, hnames, hany⟩ := hupdate J hJ
  rcases hm : v.completed with _ | m
  · rw [hm] at hany
    cases hany
  · simp only [hm, any_some, Bool.and_eq_true, decide_eq_true_eq] at hany
    exact hgrant.current hv hm hany.1 hany.2 hnames

/-- A grant after the end of the session, and two grants from the cache after an update that
does a full invalidation or names the user. -/
theorem grants_unjustified : (∃ x, Runs.Reach (step sampleConfig) (fun _ _ => True) Sys.Fresh x ∧
      (x.calls 0).ask = .authorize (sampleRequest 1) ∧
      (x.calls 0).stage = .returned sampleGrant 1500 false ∧ ¬ x.Justified sampleConfig) ∧
    (∃ x, Runs.Reach (step sampleConfig) (fun _ _ => True) Sys.Fresh x ∧
      (x.calls 1).stage = .returned sampleGrant 0 true ∧
      (x.updates.map fun v => (v.full, v.invalidated)) = [(true, [])] ∧
      ¬ x.Justified sampleConfig) ∧
    (∃ x, Runs.Reach (step sampleConfig) (fun _ _ => True) Sys.Fresh x ∧
      (x.calls 1).stage = .returned sampleGrant 0 true ∧
      (x.updates.map fun v => (v.full, v.invalidated)) = [(true, []), (false, [[117]])] ∧
      ¬ x.Justified sampleConfig) := by
  have hlate : ((after lateEvents).calls 0).stage = .returned sampleGrant 1500 false := by
    decide +kernel
  have hoverlap : ((after overlapEvents).calls 1).stage = .returned sampleGrant 0 true := by
    decide +kernel
  have hrepeated : ((after repeatedEvents).calls 1).stage = .returned sampleGrant 0 true := by
    decide +kernel
  have hasked : ((after lateEvents).calls 0).ask = .authorize (sampleRequest 1) := by
    decide +kernel
  refine ⟨⟨_, reach_after (by decide +kernel), hasked, hlate, fun h => ?_⟩,
    ⟨_, reach_after (by decide +kernel), hoverlap, by decide +kernel, ?_⟩,
    ⟨_, reach_after (by decide +kernel), hrepeated, by decide +kernel, ?_⟩⟩
  · obtain ⟨J, hJ, reply, hgrant⟩ := h hasked hlate rfl
    exact absurd hgrant.session (by decide +kernel)
  · exact not_justified (r := sampleRequest 2) (by decide +kernel) hoverlap rfl
      (by decide +kernel)
  · exact not_justified (r := sampleRequest 2) (by decide +kernel) hrepeated rfl
      (by decide +kernel)

end Mqtts.RemoteAuth

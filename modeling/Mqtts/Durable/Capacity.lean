import Mqtts.Durable.Callbacks
import Mqtts.Durable.Loading

/-!
# The ledger in every run

The counters of the store are exact and within the limits in every run of the store with its logs,
and the records in flight hold their sessions.
-/

namespace Mqtts.Durable

open List Function Store

/-! ## Records in flight -/

def Job.Apart (job job' : Job) : Prop :=
  ∀ ref ∈ job.callback.holds, ∀ ref' ∈ job'.callback.holds, ref.client ≠ ref'.client

theorem Job.Apart.symm {job job' : Job} (h : job.Apart job') : job'.Apart job :=
  fun ref href ref' href' heq => h ref' href' ref href heq.symm

/-- The ledger is sound and within the limits, and every record in flight still holds the sessions
that wait for it, no two records the same. -/
structure Served (cfg : Config) (s : Store) (jobs : LogName → List Job) : Prop where
  sound : s.Sound
  bounded : s.Bounded cfg
  holding : ∀ {log job}, job ∈ jobs log → ∀ ref ∈ job.callback.holds, s.Holding ref
  fit : ∀ {log job}, job ∈ jobs log → job.callback.Fit
  apart : ∀ log, (jobs log).Pairwise Job.Apart
  logs : ∀ {log log'}, log ≠ log' → ∀ {job job'}, job ∈ jobs log → job' ∈ jobs log' → job.Apart job'

namespace Served

variable {cfg : Config} {now : Int} {s s' : Store} {jobs : LogName → List Job} {log : LogName}
  {job : Job}

theorem idle (hs : s.Sound) (hb : s.Bounded cfg) : Served cfg s fun _ => [] :=
  ⟨hs, hb, fun h => absurd h not_mem_nil, fun h => absurd h not_mem_nil,
    fun _ => .nil, fun _ _ _ h => absurd h not_mem_nil⟩

theorem keeps (h : Served cfg s jobs) (hkeeps : Store.Keeps cfg [] s s') : Served cfg s' jobs :=
  { h with
    sound := hkeeps.sound h.sound
    bounded := hkeeps.bounded h.sound h.bounded
    holding := fun hjob ref href => hkeeps.spares not_mem_nil (h.holding hjob ref href) }

theorem mem_push {log' job'} (h : job' ∈ Function.update jobs log (jobs log ++ [job]) log') :
    job' ∈ jobs log' ∨ (log' = log ∧ job' = job) := by
  by_cases hlog : log' = log
  · subst hlog
    rw [update_self, mem_append, mem_singleton] at h
    exact h.imp_right fun heq => ⟨rfl, heq⟩
  · rw [update_of_ne hlog] at h
    exact .inl h

/-- A call may put a record in flight. -/
theorem push (h : Served cfg s jobs) (hkeeps : Store.Keeps cfg [] s s')
    (henters : job.callback.Enters s s') :
    Served cfg s' (Function.update jobs log (jobs log ++ [job])) := by
  have hk := h.keeps hkeeps
  have hnew : ∀ {log' : LogName} {job' : Job}, job' ∈ jobs log' → job'.Apart job := by
    intro log' job' hjob' ref href ref' href' heq
    have hfree := henters.free ref' href'
    rw [← heq] at hfree
    exact hfree.not_holding (h.holding hjob' ref href)
  refine ⟨hk.sound, hk.bounded, fun {log' job'} hjob' => ?_, fun {log' job'} hjob' => ?_,
    fun log' => ?_, fun {log₁ log₂} hne {job₁ job₂} h₁ h₂ => ?_⟩
  · rcases mem_push hjob' with hold | ⟨-, rfl⟩
    · exact hk.holding hold
    · exact henters.holding
  · rcases mem_push hjob' with hold | ⟨-, rfl⟩
    · exact h.fit hold
    · exact henters.fit
  · by_cases hlog : log' = log
    · subst hlog
      rw [update_self, pairwise_append]
      refine ⟨h.apart log', pairwise_singleton _ _, fun job' hjob' job'' hjob'' => ?_⟩
      rw [mem_singleton.1 hjob'']
      exact hnew hjob'
    · rw [update_of_ne hlog]
      exact h.apart log'
  · rcases mem_push h₁ with hold₁ | ⟨hlog₁, rfl⟩
    · rcases mem_push h₂ with hold₂ | ⟨-, rfl⟩
      · exact h.logs hne hold₁ hold₂
      · exact hnew hold₁
    · rcases mem_push h₂ with hold₂ | ⟨hlog₂, -⟩
      · exact (hnew hold₂).symm
      · exact absurd (hlog₁.trans hlog₂.symm) hne

/-- A callback takes the oldest record of a log out. -/
theorem pop (h : Served cfg s jobs) {rest : List Job} (hlog : jobs log = job :: rest) (ok : Bool) :
    Served cfg (s.runCallback now job ok).2 (Function.update jobs log rest) := by
  have hjob : job ∈ jobs log := hlog ▸ mem_cons_self
  have hkeeps : Store.Keeps cfg (job.callback.holds.map (·.client)) s
      (s.runCallback now job ok).2 :=
    keeps_runCallback (h.fit hjob) (h.holding hjob) ok
  have hmem : ∀ {log' : LogName} {job' : Job}, job' ∈ Function.update jobs log rest log' →
      job' ∈ jobs log' ∧ job'.Apart job := by
    intro log' job' hjob'
    by_cases heq : log' = log
    · subst heq
      rw [update_self] at hjob'
      have hapart := h.apart log'
      rw [hlog] at hapart ⊢
      exact ⟨mem_cons_of_mem _ hjob', ((pairwise_cons.1 hapart).1 job' hjob').symm⟩
    · rw [update_of_ne heq] at hjob'
      exact ⟨hjob', h.logs heq hjob' hjob⟩
  refine ⟨hkeeps.sound h.sound, hkeeps.bounded h.sound h.bounded,
    fun {log' job'} hjob' ref href => ?_, fun hjob' => h.fit (hmem hjob').1, fun log' => ?_,
    fun hne _ _ h₁ h₂ => h.logs hne (hmem h₁).1 (hmem h₂).1⟩
  · obtain ⟨hold, hapart⟩ := hmem hjob'
    refine hkeeps.spares (fun hown => ?_) (h.holding hold ref href)
    obtain ⟨ref', href', heq⟩ := mem_map.1 hown
    exact hapart ref href ref' href' heq.symm
  · by_cases heq : log' = log
    · subst heq
      have hapart := h.apart log'
      rw [hlog] at hapart
      rw [update_self]
      exact (pairwise_cons.1 hapart).2
    · rw [update_of_ne heq]
      exact h.apart log'

end Served

/-! ## Steps -/

namespace Sys

variable {cfg : Config} {x : Sys}

def jobs (x : Sys) : LogName → List Job := fun log => (x.logs log).inFlight

theorem jobs_setLog (log : LogName) (l : Log) :
    (x.setLog log l).jobs = Function.update x.jobs log l.inFlight := by
  funext log'
  rw [jobs, setLog]
  by_cases h : log' = log
  · subst h
    simp
  · simp [h, jobs]

theorem jobs_append (log : LogName) (job : Job) :
    (x.append log job).jobs = Function.update x.jobs log (x.jobs log ++ [job]) := by
  rw [append, jobs_setLog]
  simp [Log.append, Log.inFlight, jobs]

theorem jobs_setLog_same {log l} (h : l.inFlight = (x.logs log).inFlight) :
    (x.setLog log l).jobs = x.jobs := by
  rw [jobs_setLog, h]
  exact update_eq_self log x.jobs

theorem inFlight_batch {l l' : Log} {count synced ok}
    (h : l.batch count synced ok = some l') : l'.inFlight = l.inFlight := by
  unfold Log.batch at h
  split at h
  · next hok =>
      cases h
      have hdone : l.done = [] := hok.1
      simp [Log.inFlight, hdone, map_map, comp_def]
  · cases h

def Served (cfg : Config) (x : Sys) : Prop := Durable.Served cfg x.store x.jobs

theorem served_call (h : x.Served cfg) (c : Call) (full : Bool) :
    (x.call cfg c full).2.Served cfg := by
  obtain ⟨hkeeps, henters⟩ : Store.Ends cfg x.store
      (c.run cfg x.now (x.appendOutcome (c.log cfg) full) x.store) := call_ends h.sound c
  rw [call]
  generalize c.run cfg x.now (x.appendOutcome (c.log cfg) full) x.store = r at hkeeps henters
  obtain ⟨a, s'⟩ := r
  cases a with
  | queued log job =>
    have hpush : Durable.Served cfg s' (Function.update x.jobs log (x.jobs log ++ [job])) :=
      h.push hkeeps (henters rfl)
    rw [Served]
    exact (jobs_append (x := { x with store := s' }) log job).symm ▸ hpush
  | deferred | full e | error e | replied r => exact h.keeps hkeeps

theorem served_heartbeat (h : x.Served cfg) (fulls : List Bool) :
    (x.heartbeat cfg fulls).Served cfg := by
  rw [heartbeat]
  generalize hbeat : x.store.heartbeat x.now cfg (fun p => (x.logs (.state p)).failed) fulls = beat
  obtain ⟨hkeeps, hjobs⟩ : Store.Keeps cfg [] x.store beat.store ∧
      ∀ e ∈ beat.jobs, e.2.callback.holds = [] ∧ e.2.callback.Fit :=
    hbeat ▸ keeps_heartbeat _ fulls
  have hall : ∀ (sent : List (LogName × Job)) {x : Sys}, x.Served cfg →
      (∀ e ∈ sent, e.2.callback.holds = [] ∧ e.2.callback.Fit) →
        (sent.foldl (fun x e => x.append e.1 e.2) x).Served cfg := by
    intro sent
    induction sent with
    | nil => exact fun h _ => h
    | cons e rest ih =>
      intro x h hsent
      obtain ⟨hholds, hfit⟩ := hsent e mem_cons_self
      refine ih ?_ fun e' he' => hsent e' (mem_cons_of_mem _ he')
      rw [Served, jobs_append]
      exact h.push (.refl _) (Callback.enters_free hholds hfit)
  exact hall beat.jobs (h.keeps hkeeps) hjobs

theorem served_callback {log r} (h : x.Served cfg)
    (hcallback : x.callback log = some r) : r.2.Served cfg := by
  rw [callback] at hcallback
  cases hdone : (x.logs log).done with
  | nil =>
    rw [hdone] at hcallback
    cases hcallback
  | cons e rest =>
    rw [hdone] at hcallback
    cases hcallback
    have hlog : x.jobs log = e.1 :: (rest.map (·.1) ++ (x.logs log).queue) := by
      rw [jobs, Log.inFlight, hdone]
      rfl
    have hpop : Durable.Served cfg (x.store.runCallback x.now e.1 e.2).2 _ := h.pop hlog e.2
    rw [Served]
    exact (jobs_setLog log { x.logs log with done := rest }).symm ▸ hpop

theorem served_perform {e : Event} {r} (h : x.Served cfg)
    (hperform : x.perform cfg e = some r) : r.2.Served cfg := by
  have hquiet : ∀ {s' : Store}, Store.Still x.store s' → s'.sessions = x.store.sessions →
      Durable.Served cfg s' x.jobs := fun hstill hsessions => h.keeps (.of_same hstill hsessions)
  cases e <;> simp only [perform] at hperform
  case call c full =>
    split at hperform <;> cases hperform
    exact served_call h c full
  case claimLive client epoch id =>
    cases hperform
    refine h.keeps ?_
    rw [claimLive]
    split
    · exact .refl _
    · exact .refl _
    · next t hcurrent =>
        split
        · exact .refl _
        · exact keeps_put (current_found hcurrent).1 rfl rfl (.inr rfl)
  case releaseLive client epoch id =>
    cases hperform
    refine h.keeps ?_
    rw [releaseLive]
    split
    · next t hcurrent => exact keeps_put (current_found hcurrent).1 rfl rfl (.inr rfl)
    · exact .refl _
  case release bytes =>
    split at hperform <;> cases hperform
    exact hquiet { Store.Still.refl _ with } rfl
  case tick ms =>
    cases hperform
    exact h
  case heartbeat fulls =>
    cases hperform
    exact served_heartbeat h fulls
  case batch log count synced ok =>
    obtain ⟨l, hl, rfl⟩ := Option.map_eq_some_iff.1 hperform
    rw [Served]
    exact (jobs_setLog_same (inFlight_batch hl)).symm ▸ h
  case callback log => exact served_callback h hperform
  case «seal» =>
    split at hperform <;> cases hperform
    exact hquiet { Store.Still.refl _ with } rfl
  case abort =>
    split at hperform <;> cases hperform
    exact hquiet { Store.Still.refl _ with } rfl
  case copy =>
    split at hperform <;> cases hperform
    exact hquiet { Store.Still.refl _ with } rfl
  case install =>
    split at hperform <;> cases hperform
    unfold install
    split
    · exact hquiet { Store.Still.refl _ with } rfl
    · split
      · exact hquiet { Store.Still.refl _ with } rfl
      · exact h
  case installRetain =>
    split at hperform <;> cases hperform
    rw [installRetain]
    split
    · exact hquiet { Store.Still.refl _ with } rfl
    · exact h
  case prune log count =>
    split at hperform <;> cases hperform
    have hjobs : (x.setLog log ((x.logs log).prune count)).jobs = x.jobs := jobs_setLog_same rfl
    rw [Served, hjobs]
    exact h
  case reopen ms =>
    split at hperform
    · next hopen =>
        cases hperform
        obtain ⟨hs, hb⟩ := restore_sound hopen
        exact .idle hs hb
    · cases hperform

end Sys

/-! ## Every reachable state -/

theorem Sys.served_of_reach {cfg x} (h : Reachable cfg (fun _ _ => True) x) : x.Served cfg := by
  refine h.invariant ?_ fun x e x' hx _ hstep => ?_
  · rintro x ⟨now, rfl⟩
    have hindexing : Store.Still {} { indexing := true } := { Store.Still.refl {} with }
    refine .idle (hindexing.sound sound_empty) ⟨Nat.zero_le _, Nat.zero_le _, ?_⟩
    intro c t ht
    simp [Sys.start] at ht
  · obtain ⟨r, hr, rfl⟩ := Option.map_eq_some_iff.1 hstep
    exact Sys.served_perform hx hr

/-- In every run the counters of the store are what they count, and they are within the limits
of the configuration. -/
theorem ledger_exact_bounded {cfg x} (h : Reachable cfg (fun _ _ => True) x) :
    x.store.Exact ∧ x.store.Bounded cfg := by
  have hserved := Sys.served_of_reach h
  exact ⟨hserved.sound.exact, hserved.bounded⟩

/-- A session takes one message, and is passed over after that. -/
def crowdedConfig : Config :=
  { partitions := 1, maxMessagesPerSession := 1, overflowPolicy := .isolate }

def written (log : LogName) : List Event := [.batch log 1 1 true, .callback log]

def joins (client : Str) (epoch : Nat) : List Event :=
  .call (.connect client [] true 60) false :: written (.state 0) ++
    .call (.subscribe client epoch [0x61] { qos := 1 }) false :: written (.state 0)

/-- Two sessions share a publication. -/
def sharedEvents : List Event :=
  joins [0x63] 1 ++ joins [0x64] 2 ++ [.call (.publish [0x61] [7] [] 0 false) false]

/-- A second publication finds both of them full and a third session with room, and the third
subscribes again while a fourth connects. -/
def crowdedEvents : List Event :=
  sharedEvents ++ written (.message 0) ++ joins [0x65] 4 ++
    [.call (.publish [0x61] [8] [] 0 false) false,
      .call (.subscribe [0x65] 4 [0x62] { qos := 1 }) false,
      .call (.connect [0x66] [] true 60) false]

def stateAfter (events : List Event) : Sys :=
  (Runs.runOk (Sys.step crowdedConfig) (fun _ _ => True) (Sys.start 0) events).getD (Sys.start 0)

theorem reachable_shared : Reachable crowdedConfig (fun _ _ => True) (stateAfter sharedEvents) :=
  Runs.reach_runOk_getD (Sys.start 0) (.start ⟨0, rfl⟩) (by decide +kernel)

theorem ledger_exact_bounded_shared : (stateAfter sharedEvents).store.pending = 2 ∧
    (stateAfter sharedEvents).store.bytes = 2 ∧ (stateAfter sharedEvents).store.uniqueBytes = 1 ∧
    (stateAfter sharedEvents).store.Exact ∧
    (stateAfter sharedEvents).store.Bounded crowdedConfig :=
  ⟨by decide +kernel, by decide +kernel, by decide +kernel, ledger_exact_bounded reachable_shared⟩

/-- In every run a record in flight finds the sessions that wait for it busy and not replaced, and
no two records hold one client's session. -/
theorem sessions_held_once {cfg x} (h : Reachable cfg (fun _ _ => True) x) :
    (∀ log, ∀ job ∈ x.jobs log, ∀ ref ∈ job.callback.holds, x.store.Holding ref) ∧
      (∀ log, (x.jobs log).Pairwise Job.Apart) ∧
      ∀ log log', log ≠ log' → ∀ job ∈ x.jobs log, ∀ job' ∈ x.jobs log', job.Apart job' := by
  have hserved := Sys.served_of_reach h
  exact ⟨fun _ _ => hserved.holding, hserved.apart, fun _ _ hne _ hj _ => hserved.logs hne hj⟩

/-- The publication waits for the two full sessions, and the state log for the other two. -/
theorem sessions_held_once_crowded : ∃ overflow subscribe connect : Job,
    (stateAfter crowdedEvents).jobs (.message 0) = [overflow] ∧
      (stateAfter crowdedEvents).jobs (.state 0) = [subscribe, connect] ∧
      overflow.callback.holds = [⟨[0x63], 0⟩, ⟨[0x64], 1⟩] ∧
      subscribe.callback.holds = [⟨[0x65], 3⟩] ∧ connect.callback.holds = [⟨[0x66], 5⟩] ∧
      (stateAfter crowdedEvents).store.Holding ⟨[0x64], 1⟩ ∧
      (stateAfter crowdedEvents).store.Holding ⟨[0x65], 3⟩ ∧
      subscribe.Apart connect ∧ overflow.Apart subscribe := by
  have hreach : Reachable crowdedConfig (fun _ _ => True) (stateAfter crowdedEvents) :=
    Runs.reach_runOk_getD (Sys.start 0) (.start ⟨0, rfl⟩) (by decide +kernel)
  have hmessage : ∃ job, (stateAfter crowdedEvents).jobs (.message 0) = [job] ∧
      job.callback.holds = [⟨[0x63], 0⟩, ⟨[0x64], 1⟩] := ⟨_, by rfl, by decide +kernel⟩
  have hstate : ∃ job job', (stateAfter crowdedEvents).jobs (.state 0) = [job, job'] ∧
      job.callback.holds = [⟨[0x65], 3⟩] ∧ job'.callback.holds = [⟨[0x66], 5⟩] :=
    ⟨_, _, by rfl, by decide +kernel, by decide +kernel⟩
  obtain ⟨overflow, hoverflow, hfull⟩ := hmessage
  obtain ⟨subscribe, connect, hjobs, hthird, hfourth⟩ := hstate
  obtain ⟨hholding, hapart, hlogs⟩ := sessions_held_once hreach
  refine ⟨overflow, subscribe, connect, hoverflow, hjobs, hfull, hthird, hfourth, ?_, ?_, ?_, ?_⟩
  · exact hholding (.message 0) overflow (by simp [hoverflow]) _ (by simp [hfull])
  · exact hholding (.state 0) subscribe (by simp [hjobs]) _ (by simp [hthird])
  · have hpair := hapart (.state 0)
    rw [hjobs] at hpair
    exact (pairwise_cons.1 hpair).1 connect mem_cons_self
  · exact hlogs (.message 0) (.state 0) (by decide) overflow (by simp [hoverflow]) subscribe
      (by simp [hjobs])

end Mqtts.Durable

import Mqtts.Authz.Provider
import Mathlib.Data.List.Perm.Subperm

/-!
# Batches of requests and the circuit breaker

`rpc_batch` sends the jobs of a batch in one call and finishes each of them with its part of the
reply. The breaker stops the calls after three failures in a row and then lets probes through.
-/

namespace Mqtts.RemoteAuth

open List

namespace Config

/-! ## The reply to a batch -/

variable {cfg : Config} {wall n : Nat}

/-- The reply has a decision for every number from `1` to `n`, once each. -/
def WellFormed (n : Nat) : Response → Prop
  | .batch items => (items.map Prod.fst).Perm (List.range' 1 n) ∧ ∀ item ∈ items, item.2.isSome
  | _ => False

theorem readItems_isSome_iff : ∀ {items seen results},
    (cfg.readItems wall n items seen results).isSome ↔ (items.map Prod.fst).Nodup ∧
        ∀ item ∈ items, item.1 ∉ seen ∧ item.1 ∈ List.range' 1 n ∧ item.2.isSome
  | [], _, _ => by simp [readItems]
  | (id, none) :: rest, seen, results => by simp [readItems]
  | (id, some value) :: rest, seen, results => by
    have hrange : id ∈ List.range' 1 n ↔ ¬ id = 0 ∧ ¬ n < id := by
      rw [mem_range'_1]
      omega
    rw [readItems]
    split_ifs with hbad
    · refine ⟨(fun h => by cases h), fun h => ?_⟩
      obtain ⟨hseen, hid, -⟩ := h.2 _ mem_cons_self
      have := hrange.1 hid
      tauto
    · rw [readItems_isSome_iff, map_cons, nodup_cons, forall_mem_cons]
      simp only [mem_cons, not_or, mem_map, Prod.exists, exists_and_right,
        exists_eq_right, Option.isSome_some, and_true, hrange]
      constructor
      · rintro ⟨hnodup, hrest⟩
        refine ⟨⟨?_, hnodup⟩, by tauto, fun item hitem => ?_⟩
        · rintro ⟨value, hmem⟩
          exact (hrest _ hmem).1.1 rfl
        · exact ⟨(hrest item hitem).1.2, (hrest item hitem).2⟩
      · rintro ⟨⟨hid, hnodup⟩, -, hrest⟩
        refine ⟨hnodup, fun item hitem => ⟨⟨?_, (hrest item hitem).1⟩, (hrest item hitem).2⟩⟩
        rintro rfl
        exact hid ⟨item.2, hitem⟩

theorem readItems_seen {i} : ∀ {items seen results results'}, i + 1 ∈ seen →
      cfg.readItems wall n items seen results = some results' → results'[i]? = results[i]?
  | [], _, _, _, _, h => by
    cases h
    rfl
  | (id, none) :: rest, seen, results, results', _, h => by simp [readItems] at h
  | (id, some value) :: rest, seen, results, results', hi, h => by
    rw [readItems] at h
    split_ifs at h with hbad
    rw [readItems_seen (mem_cons_of_mem _ hi) h]
    have hne : id ≠ i + 1 := fun hid => hbad (.inr (.inr (hid ▸ hi)))
    exact List.getElem?_set_ne (by omega)

/-- What a job then gets is the decision with its number. -/
theorem readItems_mem {i value} :
    ∀ {items seen results results'}, (i + 1, some value) ∈ items → i < results.length →
      cfg.readItems wall n items seen results = some results' →
        results'[i]? = some (cfg.parse wall (.message value))
  | (id, none) :: rest, seen, results, results', _, _, h => by simp [readItems] at h
  | (id, some value') :: rest, seen, results, results', hmem, hi, h => by
    rw [readItems] at h
    split_ifs at h
    rcases mem_cons.1 hmem with heq | hmem
    · cases heq
      rw [readItems_seen mem_cons_self h]
      exact List.getElem?_set_self hi
    · exact readItems_mem hmem (by rwa [length_set]) h

/-- A reply is read exactly if it names every job once and decides it. -/
theorem read_isSome_iff (hgrpc : cfg.grpcMode) {response} :
    (cfg.read wall n false response).isSome ↔ WellFormed n response := by
  cases response with
  | failure => simp [read, WellFormed]
  | json data => simp [read, WellFormed, hgrpc]
  | message value => simp [read, WellFormed]
  | batch items =>
    simp only [read, WellFormed, hgrpc, Bool.not_false, Bool.and_true, Bool.true_and, beq_iff_eq]
    constructor
    · intro h
      split_ifs at h with hlength
      · obtain ⟨hnodup, hall⟩ := readItems_isSome_iff.1 h
        have hsub : items.map Prod.fst ⊆ List.range' 1 n := by
          intro id hid
          obtain ⟨item, hitem, rfl⟩ := mem_map.1 hid
          exact (hall item hitem).2.1
        exact ⟨(subperm_of_subset hnodup hsub).perm_of_length_le (by simp [hlength]),
          fun item hitem => (hall item hitem).2.2⟩
      · cases h
    · rintro ⟨hperm, hall⟩
      have hlength : items.length = n := by simpa using hperm.length_eq
      rw [if_pos hlength, readItems_isSome_iff]
      exact ⟨hperm.nodup_iff.2 nodup_range', fun item hitem => ⟨not_mem_nil,
        hperm.subset (mem_map_of_mem hitem), hall item hitem⟩⟩

/-! ## The jobs of a batch -/

structure Finished where
  job : Nat
  decision : Decision

/-- `Job::finish`. The `complete` of a job with a key runs in the state `x`, and throws without
one. -/
def finish (cfg : Config) (J : Job) (value : Decision) (x : Option Sys) : Decision :=
  match J.key with
  | none => value
  | some _ => x.elim {} fun x => (x.complete cfg J value).2

/-- The vector `results`: a malformed reply associates nothing with the jobs. -/
def results (cfg : Config) (wall n : Nat) (login : Bool) (response : Response) : List Decision :=
  (cfg.read wall n login response).getD (List.replicate n {})

/-- `rpc_batch`. The `i`-th job is finished at the time `clock i`, in the state `states i`. If
something throws, in the loop over the reply too, the handler assigns the results anew. -/
def rpcBatch (cfg : Config) (wall : Nat) (clock : Nat → Nat) (states : Nat → Option Sys)
    (jobs : List Job) (response : Response) (thrown : Bool) : List Finished :=
  let results :=
    if thrown then List.replicate jobs.length {}
    else cfg.results wall jobs.length (jobs.head?.any (·.ask.isLogin)) response
  jobs.zipIdx.map fun (J, i) =>
    ⟨i, cfg.finish J (if clock i ≥ J.deadline then {} else results.getD i {}) (states i)⟩

/-- The job passes its decision on: it has no key, or its `complete` does not throw and finds
the epochs that the job was made under. -/
def PassesOn (cfg : Config) (J : Job) (x : Option Sys) : Prop :=
  J.key = none ∨
    ∃ s, x = some s ∧ J.epoch = s.epoch ∧ J.scopeEpoch = s.scopeEpoch cfg J.ask.username

theorem finish_of_passesOn {J : Job} {x} (h : cfg.PassesOn J x) (value : Decision) :
    cfg.finish J value x = value := by
  cases hkey : J.key with
  | none => simp only [finish, hkey]
  | some key =>
    obtain hnone | ⟨s, rfl, hepoch, hscope⟩ := h
    · rw [hkey] at hnone
      cases hnone
    · have hfence : ¬ (J.epoch ≠ s.epoch ∨ J.scopeEpoch ≠ s.scopeEpoch cfg J.ask.username) := by
        rw [not_or, not_not, not_not]
        exact ⟨hepoch, hscope⟩
      simp only [finish, hkey, Option.elim_some, Sys.complete, if_neg hfence]
      split_ifs <;> rfl

theorem finish_of_not_passesOn {J : Job} {x} (h : ¬ cfg.PassesOn J x) (value : Decision) :
    cfg.finish J value x = {} := by
  rw [PassesOn, not_or] at h
  cases hkey : J.key with
  | none => exact absurd hkey h.1
  | some key =>
    cases x with
    | none => simp only [finish, hkey, Option.elim_none]
    | some s =>
      have hfence : J.epoch ≠ s.epoch ∨ J.scopeEpoch ≠ s.scopeEpoch cfg J.ask.username := by
        by_contra hno
        rw [not_or, not_not, not_not] at hno
        exact h.2 ⟨s, rfl, hno⟩
      simp only [finish, hkey, Option.elim_some, Sys.complete, if_pos hfence]

theorem finish_default (J : Job) (x : Option Sys) : cfg.finish J {} x = {} := by
  by_cases h : cfg.PassesOn J x
  · exact finish_of_passesOn h {}
  · exact finish_of_not_passesOn h {}

theorem results_addressed (hgrpc : cfg.grpcMode) {i items value} (hi : i < n)
    (hwell : WellFormed n (.batch items)) (hvalue : (i + 1, some value) ∈ items) :
    (cfg.results wall n false (.batch items)).getD i {} = cfg.parse wall (.message value) := by
  obtain ⟨ds, hread⟩ := Option.isSome_iff_exists.1 ((@read_isSome_iff cfg wall n hgrpc _).2 hwell)
  rw [results, hread, Option.getD_some, getD_eq_getElem?_getD]
  simp only [read] at hread
  split_ifs at hread
  rw [readItems_mem hvalue (by rwa [length_replicate]) hread, Option.getD_some]

theorem results_malformed (hgrpc : cfg.grpcMode) {response}
    (hbad : ¬ WellFormed n response) (i : Nat) :
    (cfg.results wall n false response).getD i {} = {} := by
  rw [← @read_isSome_iff cfg wall n hgrpc, Option.not_isSome_iff_eq_none] at hbad
  rw [results, hbad, Option.getD_none, getD_eq_getElem?_getD, List.getElem?_replicate]
  split_ifs <;> rfl

/-- Every job of a batch is finished once. If the reply is well formed and nothing throws, a
job in time ends with the decision with its number, or with none if it does not pass it on; a
late job, and every job otherwise, ends with none. -/
theorem rpcBatch_addressed (hgrpc : cfg.grpcMode) (clock : Nat → Nat)
    (states : Nat → Option Sys) {jobs} (hjobs : ∀ J ∈ jobs, J.ask.isLogin = false)
    (response : Response) (thrown : Bool) :
    (cfg.rpcBatch wall clock states jobs response thrown).map Finished.job =
        List.range jobs.length ∧
      ∀ f ∈ cfg.rpcBatch wall clock states jobs response thrown, ∃ J, jobs[f.job]? = some J ∧
        (∀ items value, response = .batch items → WellFormed jobs.length response →
          (f.job + 1, some value) ∈ items → thrown = false → clock f.job < J.deadline →
            (cfg.PassesOn J (states f.job) → f.decision = cfg.parse wall (.message value)) ∧
            (¬ cfg.PassesOn J (states f.job) → f.decision = {})) ∧
        (¬ WellFormed jobs.length response ∨ thrown ∨ J.deadline ≤ clock f.job →
          f.decision.authoritative = false) := by
  have hlogin : jobs.head?.any (·.ask.isLogin) = false := by
    cases jobs with
    | nil => rfl
    | cons J jobs => exact hjobs J mem_cons_self
  rw [rpcBatch, hlogin]
  refine ⟨?_, fun f hf => ?_⟩
  · rw [map_map]
    refine (map_congr_left fun _ _ => rfl).trans ((zipIdx_map_snd _ _).trans ?_)
    rw [range_eq_range']
  · obtain ⟨⟨J, i⟩, hmem, rfl⟩ := mem_map.1 hf
    have hJ : jobs[i]? = some J := mem_zipIdx_iff_getElem?.1 hmem
    refine ⟨J, hJ, ?_, fun hbad => ?_⟩
    · rintro items value rfl hwell hvalue rfl hclock
      have hgiven := @results_addressed cfg wall _ hgrpc _ _ _
        (List.getElem?_eq_some_iff.1 hJ).1 hwell hvalue
      simp only [if_neg (Nat.not_le.2 hclock), Bool.false_eq_true, if_false, hgiven]
      exact ⟨fun h => finish_of_passesOn h _, fun h => finish_of_not_passesOn h _⟩
    · suffices hgiven : (if clock i ≥ J.deadline then {} else
          (if thrown then List.replicate jobs.length {} else
            cfg.results wall jobs.length false response).getD i {} : Decision) = {} by
        simp only [hgiven, finish_default]
      split_ifs with hclock hthrown
      · rfl
      · rw [getD_eq_getElem?_getD, List.getElem?_replicate]
        split_ifs <;> rfl
      · rcases hbad with hbad | hbad | hbad
        · exact results_malformed hgrpc hbad i
        · exact absurd hbad hthrown
        · exact absurd hbad hclock

def batchConfig : Config :=
  { grpcMode := true, hash := ⟨List.cons 0, cons_injective, cons_ne_nil 0⟩,
    body := fun _ => some [], scopeFor := fun _ => 0, sessionExpiry := fun _ => 0 }

/-- A job for the cache, made in the epoch `epoch`. -/
def keyedJob (epoch : Nat) : Job :=
  { ask := .authorize ⟨⟨0, [], []⟩, .publish, [], none⟩, key := some [0], started := 0,
    deadline := 9, epoch := epoch, scopeEpoch := 0, created := 0 }

/-- The answers come in the other order, and the epoch has moved on for the second job. -/
theorem rpcBatch_addressed_swapped :
    let response := Response.batch [(2, some { outcome := .deny }), (1, some { outcome := .allow })]
    let finished := batchConfig.rpcBatch 0 id (fun _ => some { epoch := 1 })
      [keyedJob 1, keyedJob 0] response false
    finished.map Finished.job = List.range 2 ∧
      ∃ f ∈ finished, ∃ f' ∈ finished, f.job = 0 ∧ f'.job = 1 ∧
        f.decision = batchConfig.parse 0 (.message { outcome := .allow }) ∧ f'.decision = {} := by
  intro response finished
  have hjobs : ∀ J ∈ [keyedJob 1, keyedJob 0], J.ask.isLogin = false := by
    simp [keyedJob, Ask.isLogin]
  obtain ⟨honce, hall⟩ := @rpcBatch_addressed batchConfig 0 rfl id
    (fun _ => some { epoch := 1 }) _ hjobs response false
  have hwell : WellFormed 2 response := by
    refine ⟨?_, ?_⟩ <;> decide
  refine ⟨honce, ⟨0, _⟩, mem_cons_self, ⟨1, _⟩, mem_cons_of_mem _ mem_cons_self, rfl, rfl, ?_, ?_⟩
  · obtain ⟨J, hJ, hgood, -⟩ := hall _ mem_cons_self
    cases hJ
    exact (hgood _ _ rfl hwell (by decide) rfl (by decide)).1 (.inr ⟨_, rfl, rfl, rfl⟩)
  · obtain ⟨J, hJ, hgood, -⟩ := hall _ (mem_cons_of_mem _ mem_cons_self)
    cases hJ
    refine (hgood _ { outcome := .deny } rfl hwell (by decide) rfl (by decide)).2 ?_
    rintro (hkey | ⟨s, hs, hepoch, -⟩)
    · cases hkey
    · cases hs
      cases hepoch

end Config

/-! ## The circuit breaker -/

structure Breaker where
  circuitUntil : Nat := 0
  consecutiveFailures : Nat := 0
  probeRunning : Bool := false
  deriving DecidableEq

/-- `circuit_admit` at the time `now`. -/
def Breaker.circuitAdmit (b : Breaker) (now : Nat) : Bool × Breaker :=
  if b.consecutiveFailures < 3 then (true, b)
  else if now < b.circuitUntil ∨ b.probeRunning then (false, b)
  else (true, { b with probeRunning := true })

/-- `circuit_result` at the time `now`. -/
def Breaker.circuitResult (cooldown : Nat) (b : Breaker) (now : Nat) (healthy : Bool) : Breaker :=
  if healthy then { circuitUntil := 0, consecutiveFailures := 0, probeRunning := false }
  else
    { circuitUntil := if 3 ≤ b.consecutiveFailures + 1 then now + cooldown else b.circuitUntil
      consecutiveFailures := b.consecutiveFailures + 1
      probeRunning := false }

/-- The breaker with the requests that have not reported yet. -/
structure Circuit where
  breaker : Breaker := {}
  now : Nat
  probes : Nat := 0
  earlier : Nat := 0
  lastFailure : Nat := 0
  deriving DecidableEq

namespace Circuit

inductive Event where
  | tick (elapsed : Nat)
  | request
  | result (probe healthy : Bool)

variable (cooldown : Nat) (x : Circuit)

/-- Three failures in a row, and no healthy result since. -/
def IsOpen : Prop := 3 ≤ x.breaker.consecutiveFailures

instance instDecidableIsOpen : Decidable x.IsOpen :=
  inferInstanceAs (Decidable (3 ≤ x.breaker.consecutiveFailures))

def request : Circuit :=
  let (admitted, breaker) := x.breaker.circuitAdmit x.now
  if admitted = false then { x with breaker := breaker }
  else if x.IsOpen then { x with breaker := breaker, probes := x.probes + 1 }
  else { x with breaker := breaker, earlier := x.earlier + 1 }

def report (probe healthy : Bool) : Circuit :=
  let probes := if probe then x.probes - 1 else x.probes
  let earlier := if probe then x.earlier else x.earlier - 1
  let breaker := x.breaker.circuitResult cooldown x.now healthy
  if healthy then { x with breaker := breaker, probes := 0, earlier := earlier + probes }
  else { breaker := breaker, now := x.now, probes, earlier, lastFailure := x.now }

def step : Event → Option Circuit
  | .tick elapsed => some { x with now := x.now + elapsed }
  | .request => some x.request
  | .result probe healthy =>
    if (if probe then x.probes else x.earlier) = 0 then none
    else some (x.report cooldown probe healthy)

def Start : Prop := x.breaker = {} ∧ x.probes = 0 ∧ x.earlier = 0

/-- No failure of a request from before meets a probe: it would make room for a second one. -/
def Prompt : Event → Prop
  | .result false false => x.IsOpen → x.probes = 0
  | _ => True

instance instDecidablePrompt (event : Event) : Decidable (x.Prompt event) := by
  unfold Prompt
  split <;> infer_instance

variable {cooldown x} {x' : Circuit} {event : Event}

structure Inv (cooldown : Nat) (x : Circuit) : Prop where
  until_eq : x.IsOpen → x.breaker.circuitUntil = x.lastFailure + cooldown
  probes_eq : x.probes = x.breaker.probeRunning.toNat
  closed : ¬ x.IsOpen → x.breaker.probeRunning = false

theorem request_cases (x : Circuit) :
    x.request = x ∨ (¬ x.IsOpen ∧ x.request = { x with earlier := x.earlier + 1 }) ∨
      (x.IsOpen ∧ x.breaker.probeRunning = false ∧ x.request =
        { x with breaker := { x.breaker with probeRunning := true }, probes := x.probes + 1 }) := by
  unfold request Breaker.circuitAdmit
  by_cases hopen : x.IsOpen
  · rw [if_neg (Nat.not_lt.2 hopen)]
    by_cases hwait : x.now < x.breaker.circuitUntil ∨ x.breaker.probeRunning
    · rw [if_pos hwait]
      exact .inl rfl
    · rw [if_neg hwait]
      refine .inr (.inr ⟨hopen, Bool.eq_false_iff.2 fun h => hwait (.inr h), ?_⟩)
      simp only [Bool.true_eq_false, if_false, if_pos hopen]
  · rw [if_pos (Nat.not_le.1 hopen)]
    refine .inr (.inl ⟨hopen, ?_⟩)
    simp only [Bool.true_eq_false, if_false, if_neg hopen]

theorem Inv.request (h : Inv cooldown x) : Inv cooldown x.request := by
  obtain hx | ⟨hopen, hx⟩ | ⟨hopen, hprobe, hx⟩ := x.request_cases
  · rwa [hx]
  · rw [hx]
    exact ⟨h.until_eq, h.probes_eq, h.closed⟩
  · rw [hx]
    refine ⟨h.until_eq, ?_, fun hclosed => absurd hopen hclosed⟩
    rw [h.probes_eq, hprobe]
    rfl

theorem Inv.report (h : Inv cooldown x) {probe healthy}
    (hprompt : x.Prompt (.result probe healthy)) :
    Inv cooldown (x.report cooldown probe healthy) := by
  cases healthy with
  | true => exact ⟨fun hopen => absurd hopen (Nat.not_le.2 (Nat.succ_pos 2)), rfl, fun _ => rfl⟩
  | false =>
    refine ⟨fun hopen => if_pos hopen, ?_, fun _ => rfl⟩
    cases probe with
    | true => exact Nat.sub_eq_zero_of_le (h.probes_eq ▸ Bool.toNat_le _)
    | false =>
      by_cases hopen : x.IsOpen
      · exact hprompt hopen
      · exact h.probes_eq.trans (congrArg Bool.toNat (h.closed hopen))

theorem Inv.step (h : Inv cooldown x) (hprompt : x.Prompt event)
    (hstep : x.step cooldown event = some x') : Inv cooldown x' := by
  cases event with
  | tick elapsed =>
    cases hstep
    exact ⟨h.until_eq, h.probes_eq, h.closed⟩
  | request =>
    cases hstep
    exact h.request
  | result probe healthy =>
    obtain ⟨-, hx⟩ := Option.ite_none_left_eq_some.1 hstep
    cases hx
    exact h.report hprompt

/-- While the circuit is open there is one probe at a time, and none before the cooldown. -/
theorem one_probe (h : Runs.Reach (step cooldown) Prompt Start x) (hopen : x.IsOpen) :
    x.probes ≤ 1 ∧
      ((x.breaker.circuitAdmit x.now).1 → x.lastFailure + cooldown ≤ x.now) := by
  have hinv : Inv cooldown x := by
    refine h.invariant (fun s hs => ?_) fun s e s' hs => hs.step
    obtain ⟨hb, hprobes, -⟩ := hs
    exact ⟨by simp [IsOpen, hb], by simp [hb, hprobes], by simp [hb]⟩
  refine ⟨hinv.probes_eq ▸ Bool.toNat_le _, fun hadmit => ?_⟩
  rw [← hinv.until_eq hopen]
  by_contra hlt
  rw [Breaker.circuitAdmit, if_neg (Nat.not_lt.2 hopen), if_pos (.inl (by omega))] at hadmit
  cases hadmit

def openEvents : List Event :=
  List.replicate 4 .request ++ List.replicate 3 (.result false false) ++ [.tick 1000, .request]

theorem one_probe_running : ∃ x : Circuit, x.IsOpen ∧ x.probes = 1 ∧ x.probes ≤ 1 := by
  have hrun : Runs.runOk (step 1000) Prompt { now := 0 } openEvents =
      some ⟨⟨1000, 3, true⟩, 1000, 1, 1, 0⟩ := by decide
  have hstart : Start { now := 0 } := ⟨rfl, rfl, rfl⟩
  exact ⟨_, by decide, rfl, (one_probe (Runs.reach_runOk (.start hstart) hrun) (by decide)).1⟩

/-- The fourth request fails while the probe runs, and a second probe joins it. -/
theorem two_probes : ∃ x, Runs.Reach (step 1000) (fun _ _ => True) Start x ∧ x.IsOpen ∧
    x.probes = 2 := by
  have hrun : Runs.runOk (step 1000) (fun _ _ => True) { now := 0 }
      (openEvents ++ [.result false false, .tick 1000, .request]) =
        some ⟨⟨2000, 4, true⟩, 2000, 2, 0, 1000⟩ := by decide
  exact ⟨_, Runs.reach_runOk (.start ⟨rfl, rfl, rfl⟩) hrun, by decide, rfl⟩

end Circuit

end Mqtts.RemoteAuth

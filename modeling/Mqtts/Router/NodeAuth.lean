import Mqtts.Lib.Map
import Mqtts.Topic.Levels
import Mathlib.Data.List.Induction
import Std.Data.ExtTreeSet.Lemmas

/-!
# Node authentication of the router

A broker node authenticates with its token, a timestamp and a nonce. The router accepts a request
whose timestamp is within a tolerance of its clock and whose nonce is not in `recent_nonce_set_`. An
accepted request cannot be replayed while its nonce is in the set or once its timestamp is out of
the window.
-/

namespace Mqtts.Router

open List UInt64

open Std (ExtTreeMap ExtTreeSet)

/-- The part of `MQTTRouterConfig` that authentication reads. -/
structure AuthConfig where
  authTimestampToleranceMs : Int32 := 30000
  nodeTokenMap : ExtTreeMap Str Str := ∅

structure NodeAuthRequest where
  serverId : Str
  token : Str
  timestampMs : UInt64
  nonce : Str
  deriving DecidableEq

inductive AuthError where
  | invalidArgs
  | tokenExpired
  | nonceReplay
  | nodeNotFound
  | tokenInvalid

structure AuthStore where
  toleranceMs : Int32
  maxNonceCount : Nat
  tokens : ExtTreeMap Str Str
  recentNonces : ExtTreeSet Str
  sessionSeq : UInt64

namespace AuthStore

/-- The store after `initialize`; the sequence of sessions goes on from `seq`. -/
def initialized (cfg : AuthConfig) (seq : UInt64) : AuthStore where
  toleranceMs := cfg.authTimestampToleranceMs
  maxNonceCount :=
    let count := if cfg.nodeTokenMap.size > 0 then cfg.nodeTokenMap.size * 16 else 1024
    if count < 1024 then 1024 else count
  tokens := cfg.nodeTokenMap
  recentNonces := ∅
  sessionSeq := seq

variable (s : AuthStore) (now : UInt64) (r : NodeAuthRequest)

def deltaMs (ts : UInt64) : UInt64 := if now ≥ ts then now - ts else ts - now

/-- The checks of `validate_node_token`. -/
def check : Option AuthError :=
  if r.serverId.isEmpty || r.token.isEmpty || r.nonce.isEmpty then some .invalidArgs
  else if deltaMs now r.timestampMs > s.toleranceMs.toInt64.toUInt64 then some .tokenExpired
  else if s.recentNonces.contains r.nonce then some .nonceReplay
  else
    match s.tokens[r.serverId]? with
    | none => some .nodeNotFound
    | some token => if token ≠ r.token then some .tokenInvalid else none

/-- When the set is full, it is emptied before the nonce goes in. -/
def remember (nonce : Str) : AuthStore :=
  { s with
    recentNonces :=
      (if s.recentNonces.size ≥ s.maxNonceCount then (∅ : ExtTreeSet Str) else
        s.recentNonces).insert
        nonce
    sessionSeq := s.sessionSeq + 1 }

def sessionId : Str :=
  r.serverId ++ 0x23 :: (toString s.sessionSeq).toUTF8.data.toList

/-- `validate_node_token` at the time `now`. -/
def validateNodeToken : Except AuthError Str × AuthStore :=
  match s.check now r with
  | some e => (.error e, s)
  | none => (.ok (s.sessionId r), s.remember r.nonce)

def accepts : Bool := (s.check now r).isNone

end AuthStore

abbrev AuthCall : Type := UInt64 × NodeAuthRequest

variable (s : AuthStore) (calls : List AuthCall)

def AuthStore.after : AuthStore :=
  calls.foldl (fun s call => (s.validateNodeToken call.1 call.2).2) s

/-- The times of the calls do not go back. -/
def ClockMonotone : Prop := calls.Pairwise fun a b => a.1 ≤ b.1

def Accepted (time : UInt64) (r : NodeAuthRequest) : Prop :=
  ∃ before after, calls = before ++ (time, r) :: after ∧ (s.after before).accepts time r

/-- No request that a call of the run accepted is accepted by a later call of the run. -/
def NoReplay : Prop :=
  ∀ (before after : List AuthCall) (first second : UInt64) (r : NodeAuthRequest),
    calls = before ++ (second, r) :: after → Accepted s before first r →
      (s.after before).accepts second r = false

/-- At no point of the run would a request that it has accepted be accepted once more. -/
def ReplayRefused : Prop :=
  ∀ cut rest first now r, calls = cut ++ rest →
    (∀ call ∈ cut, call.1 ≤ now) → Accepted s cut first r → (s.after cut).accepts now r = false

open AuthStore

/-- A call that passes the checks and finds the set full comes when the requests accepted before
are out of the window. -/
def ClearsExpired : Prop :=
  ∀ before after call, calls = before ++ call :: after →
    (s.after before).accepts call.1 call.2 →
    (s.after before).maxNonceCount ≤ (s.after before).recentNonces.size →
    ∀ first r, Accepted s before first r →
      s.toleranceMs.toInt64.toUInt64 < deltaMs call.1 r.timestampMs

namespace AuthStore

variable {s : AuthStore} {now : UInt64} {r : NodeAuthRequest}

/-! ## One call -/

theorem accepts_iff : s.accepts now r ↔
    (r.serverId.isEmpty || r.token.isEmpty || r.nonce.isEmpty) = false ∧
      deltaMs now r.timestampMs ≤ s.toleranceMs.toInt64.toUInt64 ∧
      r.nonce ∉ s.recentNonces ∧ s.tokens[r.serverId]? = some r.token := by
  rw [accepts, check]
  split
  case isTrue hempty => simp [hempty]
  case isFalse hempty =>
    rw [Bool.not_eq_true] at hempty
    split
    case isTrue hdelta => simp [UInt64.not_le.2 hdelta]
    case isFalse hdelta =>
      rw [UInt64.not_lt] at hdelta
      split
      case isTrue hseen => simp [ExtTreeSet.mem_iff_contains.2 hseen]
      case isFalse hseen =>
        have hnew : r.nonce ∉ s.recentNonces := fun hmem => hseen
          (ExtTreeSet.mem_iff_contains.1 hmem)
        cases htoken : s.tokens[r.serverId]? with
        | none => simp
        | some token => by_cases hsame : token = r.token <;> simp [hsame, hempty, hdelta, hnew]

theorem toNat_deltaMs (now ts : UInt64) :
    (deltaMs now ts).toNat = now.toNat - ts.toNat + (ts.toNat - now.toNat) := by
  rw [deltaMs]
  split
  case isTrue h =>
    have hle := UInt64.le_iff_toNat_le.1 h
    rw [UInt64.toNat_sub_of_le _ _ h]
    omega
  case isFalse h =>
    have hlt := UInt64.lt_iff_toNat_lt.1 (UInt64.not_le.1 h)
    rw [UInt64.toNat_sub_of_le _ _ (UInt64.le_of_lt (UInt64.not_le.1 h))]
    omega

theorem validateNodeToken_of_accepts (h : s.accepts now r) :
    (s.validateNodeToken now r).2 = s.remember r.nonce := by
  rw [accepts, Option.isNone_iff_eq_none] at h
  rw [validateNodeToken, h]

theorem validateNodeToken_of_refused (h : s.accepts now r = false) :
    (s.validateNodeToken now r).2 = s := by
  cases hcheck : s.check now r with
  | none =>
    rw [accepts, hcheck] at h
    cases h
  | some e => rw [validateNodeToken, hcheck]

theorem mem_remember (nonce : Str) : nonce ∈ (s.remember nonce).recentNonces :=
  ExtTreeSet.mem_insert_self

theorem mem_remember_of_mem (h : s.recentNonces.size < s.maxNonceCount) {nonce old}
    (hmem : old ∈ s.recentNonces) : old ∈ (s.remember nonce).recentNonces := by
  rw [remember]
  rw [if_neg (Nat.not_le.2 h)]
  exact ExtTreeSet.mem_insert.2 (.inr hmem)

theorem eq_of_mem_remember (h : s.maxNonceCount ≤ s.recentNonces.size) {nonce old}
    (hmem : old ∈ (s.remember nonce).recentNonces) : nonce = old := by
  rw [remember] at hmem
  dsimp only at hmem
  rw [if_pos h] at hmem
  rcases ExtTreeSet.mem_insert.1 hmem with heq | hnone
  · exact Std.compare_eq_iff_eq.1 heq
  · exact absurd hnone ExtTreeSet.not_mem_empty

/-! ## Runs -/

theorem after_append (s : AuthStore) (as bs : List AuthCall) :
    s.after (as ++ bs) = (s.after as).after bs := foldl_append

theorem after_concat (s : AuthStore) (calls : List AuthCall) (call : AuthCall) :
    s.after (calls ++ [call]) = ((s.after calls).validateNodeToken call.1 call.2).2 :=
  after_append s calls [call]

/-- What `initialize` has set. -/
def SameConfig (s t : AuthStore) : Prop :=
  t.toleranceMs = s.toleranceMs ∧ t.tokens = s.tokens ∧ t.maxNonceCount = s.maxNonceCount

theorem sameConfig_validateNodeToken (s : AuthStore) (now : UInt64) (r : NodeAuthRequest) :
    SameConfig s (s.validateNodeToken now r).2 := by
  rw [validateNodeToken]
  split <;> exact ⟨rfl, rfl, rfl⟩

theorem sameConfig_after : ∀ calls s, SameConfig s (s.after calls)
  | [], _ => ⟨rfl, rfl, rfl⟩
  | call :: rest, s => by
    obtain ⟨htolerance, htokens, hmax⟩ := sameConfig_after rest
      (s.validateNodeToken call.1 call.2).2
    obtain ⟨htolerance', htokens', hmax'⟩ := sameConfig_validateNodeToken s call.1 call.2
    exact ⟨htolerance.trans htolerance', htokens.trans htokens', hmax.trans hmax'⟩

end AuthStore

section

variable {s : AuthStore} {calls : List AuthCall} {first now : UInt64} {r : NodeAuthRequest}

theorem Accepted.mem (h : Accepted s calls first r) : (first, r) ∈ calls := by
  obtain ⟨before, after, rfl, -⟩ := h
  exact mem_append_right _ (mem_cons_self)

theorem Accepted.append (h : Accepted s calls first r) (more : List AuthCall) :
    Accepted s (calls ++ more) first r := by
  obtain ⟨before, after, rfl, haccepts⟩ := h
  exact ⟨before, after ++ more, by simp, haccepts⟩

theorem Accepted.of_concat {call : AuthCall} (h : Accepted s (calls ++ [call]) first r) :
    Accepted s calls first r ∨ call = (first, r) ∧ (s.after calls).accepts first r := by
  obtain ⟨before, after, heq, haccepts⟩ := h
  rcases eq_nil_or_concat after with rfl | ⟨rest, last, rfl⟩
  · obtain ⟨rfl, hcall⟩ := append_inj' heq rfl
    exact .inr ⟨singleton_inj.1 hcall, haccepts⟩
  · rw [concat_eq_append, ← cons_append, ← append_assoc] at heq
    obtain ⟨rfl, -⟩ := append_inj' heq rfl
    exact .inl ⟨before, rest, rfl, haccepts⟩

theorem Accepted.accepts_iff (h : Accepted s calls first r) (cut : List AuthCall) :
    (s.after cut).accepts now r ↔
      deltaMs now r.timestampMs ≤ s.toleranceMs.toInt64.toUInt64 ∧
        r.nonce ∉ (s.after cut).recentNonces := by
  obtain ⟨before, after, -, haccepts⟩ := h
  obtain ⟨hfields, -, -, htoken⟩ := AuthStore.accepts_iff.1 haccepts
  rw [(AuthStore.sameConfig_after before s).2.1] at htoken
  rw [AuthStore.accepts_iff, (AuthStore.sameConfig_after cut s).1,
    (AuthStore.sameConfig_after cut s).2.1]
  exact ⟨fun ⟨_, hdelta, hnew, _⟩ => ⟨hdelta, hnew⟩,
    fun ⟨hdelta, hnew⟩ => ⟨hfields, hdelta, hnew, htoken⟩⟩

theorem deltaMs_expired {tolerance ts time later}
    (hfirst : deltaMs first ts ≤ tolerance) (h : tolerance < deltaMs time ts)
    (hle : first ≤ time) (hlater : time ≤ later) : tolerance < deltaMs later ts := by
  rw [le_iff_toNat_le, toNat_deltaMs] at hfirst
  rw [lt_iff_toNat_lt, toNat_deltaMs] at h ⊢
  rw [le_iff_toNat_le] at hle hlater
  omega

def Covered (s : AuthStore) (calls : List AuthCall) : Prop :=
  ∀ first r, Accepted s calls first r → r.nonce ∈ (s.after calls).recentNonces ∨
    ∃ call ∈ calls, first ≤ call.1 ∧
      s.toleranceMs.toInt64.toUInt64 < deltaMs call.1 r.timestampMs

/-- One more call keeps the invariant when it does not empty the set, or only forgets requests that
are out of the window. -/
theorem Covered.concat {call} (h : Covered s calls) (hclock : ∀ earlier ∈ calls, earlier.1 ≤ call.1)
    (hclears : (s.after calls).accepts call.1 call.2 →
      (s.after calls).maxNonceCount ≤ (s.after calls).recentNonces.size →
      ∀ first r, Accepted s calls first r →
        s.toleranceMs.toInt64.toUInt64 < deltaMs call.1 r.timestampMs) :
    Covered s (calls ++ [call]) := by
  intro first r haccepted
  rw [after_concat]
  have hlast : call ∈ calls ++ [call] := mem_append_right _ (mem_singleton.2 rfl)
  rcases haccepted.of_concat with hearlier | ⟨rfl, haccepts⟩
  case inr =>
    rw [validateNodeToken_of_accepts haccepts]
    exact .inl (mem_remember r.nonce)
  rcases h first r hearlier with hmem | ⟨past, hpast, hexpired⟩
  case inr => exact .inr ⟨past, mem_append_left _ hpast, hexpired⟩
  cases haccepts : (s.after calls).accepts call.1 call.2 with
  | false =>
    rw [validateNodeToken_of_refused haccepts]
    exact .inl hmem
  | true =>
    rw [validateNodeToken_of_accepts haccepts]
    by_cases hroom : (s.after calls).recentNonces.size < (s.after calls).maxNonceCount
    · exact .inl (mem_remember_of_mem hroom hmem)
    · have hexpired := hclears haccepts (Nat.not_lt.1 hroom) first r hearlier
      exact .inr ⟨call, hlast, hclock _ hearlier.mem, hexpired⟩

/-- The requests are covered as long as the set is only emptied when those accepted so far are
expired. -/
theorem covered_of_clearsExpired (hclock : ClockMonotone calls) (h : ClearsExpired s calls) :
    Covered s calls := by
  -- the invariant speaks of the calls so far, so the induction appends the last call
  induction calls using List.reverseRecOn with
  | nil =>
    intro first r haccepted
    exact absurd haccepted.mem not_mem_nil
  | append_singleton calls call ih =>
    obtain ⟨hbefore, -, hlast⟩ := pairwise_append.1 hclock
    have hcovered : Covered s calls := ih hbefore fun before after call' heq =>
      h before (after ++ [call]) call' (by simp [heq])
    refine hcovered.concat (fun earlier hmem => ?_) (h calls [] call rfl)
    exact hlast earlier hmem call (mem_singleton.2 rfl)

theorem Covered.refused (h : Covered s calls) (haccepted : Accepted s calls first r)
    (hnow : ∀ call ∈ calls, call.1 ≤ now) : (s.after calls).accepts now r = false := by
  rw [← Bool.not_eq_true, haccepted.accepts_iff]
  rintro ⟨hdelta, hnew⟩
  rcases h first r haccepted with hmem | ⟨call, hcall, hle, hexpired⟩
  · exact hnew hmem
  obtain ⟨before, -, -, haccepts⟩ := haccepted
  have hfirst := (accepts_iff.1 haccepts).2.1
  rw [(sameConfig_after before s).1] at hfirst
  have hlater := deltaMs_expired hfirst hexpired hle (hnow call hcall)
  exact UInt64.not_le.2 hlater hdelta

theorem ClearsExpired.append_left {cut rest} (h : ClearsExpired s (cut ++ rest)) :
    ClearsExpired s cut := fun before after call heq =>
  h before (after ++ rest) call (by simp [heq])

theorem clearsExpired_of_replayRefused (hclock : ClockMonotone calls) (h : ReplayRefused s calls) :
    ClearsExpired s calls := by
  intro before after call hcalls haccepts hfull first r haccepted
  by_contra hdelta
  have hdelta := UInt64.not_lt.1 hdelta
  subst hcalls
  have hbefore : ∀ earlier ∈ before, earlier.1 ≤ call.1 := fun earlier hmem =>
    (pairwise_append.1 hclock).2.2 earlier hmem call mem_cons_self
  -- the request is refused before the call, so its nonce is in the set that the call empties
  have hmem : r.nonce ∈ (s.after before).recentNonces := by
    by_contra hnew
    have hrefused := h before (call :: after) first call.1 r rfl hbefore haccepted
    rw [(haccepted.accepts_iff before).2 ⟨hdelta, hnew⟩] at hrefused
    cases hrefused
  -- and it is refused after the call, so it is the nonce of the call
  have hsame : call.2.nonce = r.nonce := by
    by_contra hne
    have hrefused := h (before ++ [call]) after first call.1 r (by simp) (fun earlier hin => by
      rcases mem_append.1 hin with hin | hin
      · exact hbefore earlier hin
      · exact mem_singleton.1 hin ▸ UInt64.le_refl _) (haccepted.append [call])
    refine absurd ((haccepted.accepts_iff (before ++ [call])).2 ⟨hdelta, fun hin => hne ?_⟩)
      (by rw [hrefused]; decide)
    rw [after_concat, validateNodeToken_of_accepts haccepts] at hin
    exact eq_of_mem_remember hfull hin
  exact (accepts_iff.1 haccepts).2.2.1 (hsame ▸ hmem)

end

/-- In a run whose clock does not go back no accepted request is accepted again, if the set is
only emptied when the requests accepted before are out of the window; and exactly then the run
is at no point open to a replay. -/
theorem replay_refused_iff (cfg : AuthConfig) (seq : UInt64) (calls : List AuthCall)
    (hclock : ClockMonotone calls) :
    (ClearsExpired (.initialized cfg seq) calls → NoReplay (.initialized cfg seq) calls) ∧
      (ReplayRefused (.initialized cfg seq) calls ↔
        ClearsExpired (.initialized cfg seq) calls) := by
  generalize initialized cfg seq = s
  have hrefused (h : ClearsExpired s calls) : ReplayRefused s calls := by
    intro cut rest first now r hcut hnow haccepted
    subst hcut
    have hcovered := covered_of_clearsExpired (pairwise_append.1 hclock).1 h.append_left
    exact hcovered.refused haccepted hnow
  refine ⟨fun h before after first second r hcalls haccepted => ?_, clearsExpired_of_replayRefused
    hclock,
    hrefused⟩
  refine hrefused h before ((second, r) :: after) first second r hcalls (fun call hmem => ?_)
    haccepted
  rw [hcalls] at hclock
  exact (pairwise_append.1 hclock).2.2 call hmem _ mem_cons_self

def sampleConfig : AuthConfig := { nodeTokenMap := (∅ : ExtTreeMap Str Str).insert [0x61] [0x74] }

def sampleRequest (i : Nat) : NodeAuthRequest :=
  { serverId := [0x61], token := [0x74], timestampMs := 1000,
    nonce := [UInt8.ofNat (i / 256), UInt8.ofNat i] }

/-- Two requests, and the first of them once more. -/
theorem replay_refused_iff_sample : ClearsExpired (.initialized sampleConfig 1)
        [(1000, sampleRequest 1), (1000, sampleRequest 2), (1001, sampleRequest 1)] ∧
      NoReplay (.initialized sampleConfig 1)
        [(1000, sampleRequest 1), (1000, sampleRequest 2), (1001, sampleRequest 1)] := by
  have hclears : ClearsExpired (.initialized sampleConfig 1)
      [(1000, sampleRequest 1), (1000, sampleRequest 2), (1001, sampleRequest 1)] := by
    intro before after call hcalls _ hfull
    exfalso
    revert hfull
    rw [imp_false, Nat.not_le]
    rcases before with _ | ⟨a, _ | ⟨b, _ | ⟨c, before⟩⟩⟩
    · decide +kernel
    · obtain ⟨rfl, -⟩ := List.cons.inj hcalls
      decide +kernel
    · obtain ⟨rfl, hrest⟩ := List.cons.inj hcalls
      obtain ⟨rfl, -⟩ := List.cons.inj hrest
      decide +kernel
    · simp at hcalls
  exact ⟨hclears, (replay_refused_iff sampleConfig 1 _ (by unfold ClockMonotone; decide)).1 hclears⟩

def flood (n : Nat) : List AuthCall := (List.range n).map fun i => (1000, sampleRequest i)

theorem flood_succ (n : Nat) : flood (n + 1) = flood n ++ [(1000, sampleRequest n)] := by
  rw [flood, range_succ, map_append]
  rfl

theorem sampleRequest_nonce_inj {i j} (hi : i < 65536) (hj : j < 65536)
    (h : (sampleRequest i).nonce = (sampleRequest j).nonce) : i = j := by
  obtain ⟨hhigh, hrest⟩ := List.cons.inj h
  have hhigh := congrArg UInt8.toNat hhigh
  have hlow := congrArg UInt8.toNat (List.cons.inj hrest).1
  simp only [UInt8.toNat_ofNat'] at hhigh hlow
  omega

theorem after_flood_succ {n}
    (h : ((initialized sampleConfig 1).after (flood n)).accepts 1000 (sampleRequest n) = true) :
    (initialized sampleConfig 1).after (flood (n + 1)) =
      ((initialized sampleConfig 1).after (flood n)).remember (sampleRequest n).nonce := by
  rw [flood_succ, after_concat]
  exact validateNodeToken_of_accepts h

theorem flood_spec : ∀ n ≤ 1024,
    ((initialized sampleConfig 1).after (flood n)).recentNonces.size = n ∧
      (∀ nonce ∈ ((initialized sampleConfig 1).after (flood n)).recentNonces,
        ∃ i < n, nonce = (sampleRequest i).nonce) ∧
      ((initialized sampleConfig 1).after (flood n)).accepts 1000 (sampleRequest n)
  | 0, _ => ⟨rfl, fun nonce hmem => absurd hmem ExtTreeSet.not_mem_empty, by decide +kernel⟩
  | n + 1, hn => by
    obtain ⟨hsize, hfrom, haccepts⟩ := flood_spec n (by omega)
    have hmax := (sameConfig_after (flood n) (.initialized sampleConfig 1)).2.2
    have hconfig := sameConfig_after (flood (n + 1)) (.initialized sampleConfig 1)
    have hnew := (accepts_iff.1 haccepts).2.2.1
    rw [after_flood_succ haccepts] at *
    generalize (initialized sampleConfig 1).after (flood n) = s at *
    have hroom : ¬ s.recentNonces.size ≥ s.maxNonceCount := by
      rw [hsize, hmax]
      show ¬ n ≥ 1024
      omega
    have hfrom' : ∀ nonce ∈ (s.remember (sampleRequest n).nonce).recentNonces,
        ∃ i < n + 1, nonce = (sampleRequest i).nonce := by
      intro nonce hmem
      rw [remember] at hmem
      dsimp only at hmem
      rw [if_neg hroom] at hmem
      rcases ExtTreeSet.mem_insert.1 hmem with heq | hmem
      · exact ⟨n, by omega, (Std.compare_eq_iff_eq.1 heq).symm⟩
      · obtain ⟨i, hi, heq⟩ := hfrom nonce hmem
        exact ⟨i, by omega, heq⟩
    refine ⟨?_, hfrom', ?_⟩
    · rw [remember]
      rw [if_neg hroom, ExtTreeSet.size_insert, if_neg, hsize]
      exact fun hmem => hnew (ExtTreeSet.mem_iff_contains.2 hmem)
    · rw [accepts_iff, hconfig.1, hconfig.2.1]
      have hdelta : deltaMs 1000 1000 ≤
          (initialized sampleConfig 1).toleranceMs.toInt64.toUInt64 := by decide +kernel
      have htoken : (initialized sampleConfig 1).tokens[([0x61] : Str)]? = some [0x74] := by
        decide +kernel
      refine ⟨rfl, hdelta, fun hmem => ?_, htoken⟩
      obtain ⟨i, hi, heq⟩ := hfrom' _ hmem
      have := sampleRequest_nonce_inj (by omega) (by omega) heq
      omega

/-- A request is accepted, then as many others as the set holds, and then it is accepted again, all
at the time of its timestamp. -/
theorem replay_accepted : ClockMonotone (flood 1025 ++ [(1000, sampleRequest 0)]) ∧
      ¬ NoReplay (.initialized sampleConfig 1) (flood 1025 ++ [(1000, sampleRequest 0)]) := by
  have hconst : ∀ call ∈ flood 1025 ++ [(1000, sampleRequest 0)], call.1 = 1000 := by
    intro call hmem
    rcases mem_append.1 hmem with hmem | hmem
    · obtain ⟨i, -, rfl⟩ := mem_map.1 hmem
      rfl
    · rw [mem_singleton.1 hmem]
  refine ⟨pairwise_iff_forall_sublist.2 fun {a b} hsub => ?_, fun h => ?_⟩
  · rw [hconst a (hsub.subset (by simp)), hconst b (hsub.subset (by simp))]
    exact UInt64.le_refl _
  have hfirst : Accepted (.initialized sampleConfig 1) (flood 1025) 1000 (sampleRequest 0) :=
    ⟨[], (List.range' 1 1024).map fun i => (1000, sampleRequest i), by decide +kernel,
      by decide +kernel⟩
  have hrefused := h (flood 1025) [] 1000 1000 (sampleRequest 0) rfl hfirst
  obtain ⟨hsize, -, haccepts⟩ := flood_spec 1024 le_rfl
  have hdelta : deltaMs 1000 (sampleRequest 0).timestampMs ≤
      (initialized sampleConfig 1).toleranceMs.toInt64.toUInt64 := by decide +kernel
  refine absurd ((hfirst.accepts_iff (flood 1025)).2 ⟨hdelta, fun hmem => ?_⟩)
    (by rw [hrefused]; decide)
  -- the last call of the flood finds the set full
  rw [after_flood_succ haccepts] at hmem
  have hfull : ((initialized sampleConfig 1).after (flood 1024)).maxNonceCount ≤
      ((initialized sampleConfig 1).after (flood 1024)).recentNonces.size := by
    rw [hsize, (sameConfig_after _ _).2.2]
    exact Nat.le_refl 1024
  have heq := eq_of_mem_remember hfull hmem
  have := sampleRequest_nonce_inj (by omega) (by omega) heq
  omega

end Mqtts.Router

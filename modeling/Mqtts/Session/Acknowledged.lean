import Mqtts.Protocol.Inbound

/-!
# The acknowledgement of a publication in a cluster

`forward_publish_cluster` forwards a publication to the local subscribers, asks the router for the
other nodes and sends it to each of them. Errors and numbers of recipients share an integer, and
the local result is looked at only when there is no router.
-/

namespace Mqtts.Inbound

/-! ## The cluster step -/

def routeEmpty : Int := -909
def forwardTargetInvalid : Int := -925
def publishQuota : Int := -406

/-- What the surroundings of `forward_publish_cluster` answer. -/
structure Cluster where
  /-- The result of `forward_publish_by_topic`. -/
  delivered : Int
  /-- The result of `route_publish` and the number of targets, when there is a router client. -/
  route : Option (Int × Nat)
  forwardingClient : Bool
  /-- `cluster_enabled`. -/
  strict : Bool
  /-- The result and the delivered count of the forward to each target. -/
  remote : Nat → Int × Int

/-- The loop over the targets from the `i`-th on, with `left` of them to come: the result, the
delivered count and the targets that the publication was sent to. -/
def Cluster.forwardLoop (k : Cluster) : Nat → Nat → Int → List Nat → Int × Int × List Nat
  | 0, _, delivered, sent => (0, delivered, sent)
  | left + 1, i, delivered, sent =>
    if !k.forwardingClient then
      if k.strict then (forwardTargetInvalid, delivered, sent)
      else k.forwardLoop left (i + 1) delivered sent
    else if (k.remote i).1 = 0 then
      k.forwardLoop left (i + 1) (delivered + (k.remote i).2) (sent ++ [i])
    else ((k.remote i).1, delivered, sent ++ [i])

/-- `forward_publish_cluster`: its result, and the targets that the publication was sent to. -/
def forwardPublishCluster (k : Cluster) : Int × List Nat :=
  match k.route with
  | none => (k.delivered, [])
  | some (ret, targets) =>
    if ret = routeEmpty then (k.delivered, [])
    else if ret = 0 then
      let (ret, delivered, sent) := k.forwardLoop targets 0 k.delivered []
      (if ret = 0 then delivered else ret, sent)
    else (ret, [])

/-- What `handle_publish` makes of the result of `forward_publish_via_router`. -/
def forwardResult (ret : Int) : ForwardResult :=
  if ret ≥ 0 then .subscribers ret.toNat
  else if ret = publishQuota then .quota
  else .error

def Reply.Positive (r : Reply) : Prop :=
  ∃ id, .puback id .success ∈ r.actions ∨ .pubrec id .success ∈ r.actions

/-! ## When the local result counts -/

/-- The local step succeeds, or its error reaches the end of the function: no node is asked, or the
code that is returned instead is the same. -/
def Cluster.Heeds (k : Cluster) : Prop :=
  k.delivered ≥ 0 ∨
    match k.route with
    | none => True
    | some (ret, targets) =>
      ret = routeEmpty ∨ ret = k.delivered ∨ ret = 0 ∧ (targets = 0 ∨ k.forwardingClient = false ∧
          (k.strict = false ∨ k.delivered = forwardTargetInvalid))

instance instDecidableHeeds (k : Cluster) : Decidable k.Heeds := by
  unfold Cluster.Heeds
  split <;> infer_instance

variable {k : Cluster} {cfg : Config} {p : Publish} {a : Answers} {h : Handler}

theorem forwardLoop_sent : ∀ left i delivered sent, sent ⊆ (k.forwardLoop left i delivered sent).2.2
  | 0, _, _, _ => List.Subset.refl _
  | left + 1, i, delivered, sent => by
    rw [Cluster.forwardLoop]
    split_ifs
    · exact List.Subset.refl _
    · exact forwardLoop_sent left ..
    · exact List.Subset.trans (List.subset_append_left ..) (forwardLoop_sent left ..)
    · exact List.subset_append_left ..

theorem forwardLoop_unclient (hclient : k.forwardingClient = false) : ∀ left i delivered sent,
      k.forwardLoop left i delivered sent =
        (if left ≠ 0 ∧ k.strict then forwardTargetInvalid else 0, delivered, sent)
  | 0, _, _, _ => rfl
  | left + 1, i, delivered, sent => by
    rw [Cluster.forwardLoop, hclient]
    cases hstrict : k.strict with
    | true => simp
    | false =>
      rw [forwardLoop_unclient hclient left, hstrict]
      simp

theorem forwardPublishCluster_heeds (hneg : k.delivered < 0) :
    forwardPublishCluster k = (k.delivered, []) ↔ k.Heeds := by
  have hno : ¬ k.delivered ≥ 0 := by omega
  rw [forwardPublishCluster, Cluster.Heeds, or_iff_right hno]
  split
  · simp
  next ret targets hroute =>
  by_cases hempty : ret = routeEmpty
  · simp [hempty]
  rw [if_neg hempty, or_iff_right hempty]
  by_cases hzero : ret = 0
  · subst hzero
    rw [if_pos rfl, or_iff_right (by omega), and_iff_right rfl]
    cases targets with
    | zero => simp [Cluster.forwardLoop]
    | succ n =>
      cases hclient : k.forwardingClient with
      | true =>
        -- the first target has been sent the publication
        have hsent : 0 ∈ (k.forwardLoop (n + 1) 0 k.delivered []).2.2 := by
          rw [Cluster.forwardLoop, hclient]
          simp only [Bool.not_true, Bool.false_eq_true, if_false, List.nil_append]
          split
          · exact forwardLoop_sent n 1 _ [0] List.mem_cons_self
          · exact List.mem_cons_self
        refine iff_of_false (fun h => ?_) (by simp)
        rw [show (k.forwardLoop (n + 1) 0 k.delivered []).2.2 = [] from congrArg Prod.snd h]
          at hsent
        exact absurd hsent List.not_mem_nil
      | false =>
        simp only [forwardLoop_unclient hclient]
        cases hstrict : k.strict <;> simp [forwardTargetInvalid, eq_comm]
  · rw [if_neg hzero]
    simp [hzero]

/-! ## The answer to the publisher -/

theorem handlePublish_of_forward {q} (hq : .forward q ∈ (handlePublish cfg h p a).1.actions) :
    (handlePublish cfg h p a).1 = forwardPublish cfg p a := by
  have hdeny : ∀ f, .forward q ∉ (denyPublish cfg f p a).1.actions := by
    intro f
    rw [denyPublish]
    split_ifs <;> simp
  have hprocess : ∀ f, .forward q ∈ (processPublish cfg f p a).1.actions →
      (processPublish cfg f p a).1 = forwardPublish cfg p a := by
    intro f hf
    rw [processPublish] at hf ⊢
    split_ifs at hf ⊢
    · exact absurd hf (hdeny f)
    · rfl
  have hadmit : ∀ f, .forward q ∈ (admitPublish cfg f p a).1.actions →
      (admitPublish cfg f p a).1 = forwardPublish cfg p a := by
    intro f hf
    rw [admitPublish] at hf ⊢
    split_ifs at hf ⊢
    · simp [closeForFlow] at hf
    · simp [closeForFlow] at hf
    · split at hf
      · simp at hf
      · simp [closeForFlow] at hf
      · exact hprocess _ hf
    · exact hprocess _ hf
  rw [handlePublish] at hq ⊢
  split_ifs at hq ⊢
  · simp at hq
  · simp [closeForFlow] at hq
  · simp at hq
  · simp [closeForFlow] at hq
  · simp [closeForFlow] at hq
  · exact hadmit _ hq

theorem subscribers_of_positive {q} (hq : .forward q ∈ (forwardPublish cfg p a).actions)
    (hpositive : (forwardPublish cfg p a).Positive) : ∃ n, a.forward = .subscribers n := by
  obtain ⟨id, hid⟩ := hpositive
  rw [forwardPublish] at hq hid
  by_cases hmanager : cfg.sessionManager
  · rw [if_pos hmanager] at hid
    cases hforward : a.forward with
    | subscribers n => exact ⟨n, rfl⟩
    | quota =>
      simp only [hforward] at hid
      split at hid <;> simp at hid
    | error => simp [hforward] at hid
  · rw [if_neg hmanager, acknowledge] at hq
    split_ifs at hq <;> simp at hq

/-- When an error of the local step is what the publisher is told and keeps the publication from the
other nodes. -/
theorem acknowledged_iff (hforward : .forward p ∈ (handlePublish cfg h p
      { a with forward := forwardResult (forwardPublishCluster k).1 }).1.actions) :
    (((handlePublish cfg h p
        { a with forward := forwardResult (forwardPublishCluster k).1 }).1.Positive →
          k.delivered ≥ 0) ∧
      (k.delivered < 0 → forwardPublishCluster k = (k.delivered, []))) ↔ k.Heeds := by
  constructor
  · rintro ⟨-, hreturned⟩
    rcases lt_or_ge k.delivered 0 with hneg | hge
    · exact (forwardPublishCluster_heeds hneg).1 (hreturned hneg)
    · exact .inl hge
  · intro hheeds
    refine ⟨fun hpositive => ?_, fun hneg => (forwardPublishCluster_heeds hneg).2 hheeds⟩
    by_contra hneg
    have hresult := (forwardPublishCluster_heeds (Int.not_le.1 hneg)).2 hheeds
    have hreply := handlePublish_of_forward hforward
    rw [hreply] at hforward hpositive
    obtain ⟨n, hn⟩ := subscribers_of_positive hforward hpositive
    simp only [hresult, forwardResult, if_neg hneg] at hn
    split at hn <;> cases hn

def refusedPublish : Publish := ⟨[97], 1, false, false, 7, [1]⟩

theorem refused_acknowledged :
    ¬ ((handlePublish sampleConfig ⟨true, {}⟩ refusedPublish ⟨.unused, .success,
        forwardResult (forwardPublishCluster ⟨publishQuota, none, true, true, fun _ => (0, 500)⟩).1,
        true⟩).1.Positive) := by
  have hiff := @acknowledged_iff ⟨publishQuota, none, true, true, fun _ => (0, 500)⟩ sampleConfig
    refusedPublish ⟨.unused, .success, .error, true⟩ ⟨true, {}⟩ (by decide)
  exact fun hpositive => absurd ((hiff.2 (by decide)).1 hpositive) (by decide)

/-- The count of the other node turns the error of the local step into a success. -/
theorem refused_forwarded :
    forwardPublishCluster ⟨publishQuota, some (0, 1), true, true, fun _ => (0, 500)⟩ = (94, [0]) ∧
    (handlePublish sampleConfig ⟨true, {}⟩ refusedPublish ⟨.unused, .success,
      forwardResult (forwardPublishCluster
        ⟨publishQuota, some (0, 1), true, true, fun _ => (0, 500)⟩).1, true⟩).1.actions =
      [.forward refusedPublish, .puback 7 .success] := by
  decide

end Mqtts.Inbound

import Mqtts.Topic.FanOut

/-!
# The QoS of the entry points

Every way into the broker that makes a subscription or a publication, with persistence disabled:
SUBSCRIBE and PUBLISH packets, JSON messages of WebSocket clients, and publications that other nodes
forward. The packets are checked before they reach the topic tree. A JSON message brings any integer
and a forwarded publication any number of 32 bits, and both are cut to a byte.
-/

namespace Mqtts

open List TreeOp TopicTree

inductive Input where
  /-- One subscription of a SUBSCRIBE packet, with the server's limit; also one that is put back
  when a later step fails. -/
  | subscribe (client filter : Str) (options : SubscriptionOptions) (qosCap : Nat)
  | unsubscribe (client filter : Str)
  | publish (p : Publication)
  | jsonSubscribe (client filter : Str) (qos : Int)
  | jsonPublish (p : Publication) (qos : Int)
  | forwarded (p : Publication) (qos : UInt32)

/-- `strtol`, and then the conversions to `int` and to `uint8_t`. -/
def narrow (qos : Int) : Nat := (max (-2 ^ 63) (min qos (2 ^ 63 - 1)) % 256).toNat

def Input.apply (t : TopicTree) : Input → TopicTree
  | .subscribe client filter options qosCap =>
    if options.qos ≤ 2 then
      (TreeOp.subscribe client filter { options with qos := min options.qos qosCap }).apply t
    else t
  | .unsubscribe client filter => (TreeOp.unsubscribe client filter).apply t
  | .jsonSubscribe client filter qos =>
    (TreeOp.subscribe client filter { qos := narrow qos }).apply t
  | _ => t

/-- The publication that `forward_publish_by_topic` gets. -/
def Input.publication : Input → Option Publication
  | .publish p => if p.qos ≤ 2 then some p else none
  | .jsonPublish p qos => some { p with qos := narrow qos }
  | .forwarded p qos => some { p with qos := qos.toNat % 256 }
  | _ => none

def runInputs (inputs : List Input) : TopicTree := inputs.foldl Input.apply .new

def StoredQos (t : TopicTree) : Prop := ∀ path, ∀ i ∈ (t.root.subscribersAt path).elems, i.qos ≤ 2

/-- Stored subscriptions and planned deliveries have QoS 0, 1 or 2. -/
def OnlyThreeQos (t : TopicTree) : Prop :=
  StoredQos t ∧ ∀ input p, Input.publication input = some p →
    ∀ o sort implicitNoLocal, ∀ d ∈ liveDeliveries t o sort p implicitNoLocal, d.qos ≤ 2

/-- A delivery has the smaller QoS of its subscription and its publication, so the subscriptions
decide. -/
theorem StoredQos.deliveries {t p o} {sort : ClientSort} {implicitNoLocal d} (h : StoredQos t)
    (hd : d ∈ liveDeliveries t o sort p implicitNoLocal) : d.qos ≤ 2 := by
  obtain ⟨s, hs, -, rfl⟩ := mem_liveDeliveries.1 hd
  obtain ⟨path, -, hmem⟩ := mem_collect_iff_heldFor.1 (SortUnique.mem_of_mem_sortUnique hs)
  exact (Nat.min_le_left _ _).trans (h path s hmem)

theorem StoredQos.subscribe {t} (h : StoredQos t) {client filter} {options : SubscriptionOptions}
    (hqos : accepts filter client → options.qos ≤ 2) :
    StoredQos ((TreeOp.subscribe client filter options).apply t) := by
  cases ha : accepts filter client with
  | false => simpa [TreeOp.apply, subscribe_error ha, Except.toOption] using h
  | true =>
    intro path i hi
    rcases (mem_apply_subscribe ha).1 hi with ⟨rfl, -⟩ | ⟨hi, -⟩
    · exact hqos ha
    · exact h path i hi

theorem StoredQos.unsubscribe {t} (h : StoredQos t) (client filter) :
    StoredQos ((TreeOp.unsubscribe client filter).apply t) := by
  cases hu : t.unsubscribe filter client with
  | error e => simpa [TreeOp.apply, hu, Except.toOption] using h
  | ok t' =>
    rw [apply_unsubscribe hu]
    exact fun path i hi => h path i ((mem_unsubscribe hu).1 hi).1

def Input.Narrow : Input → Prop
  | .jsonSubscribe client filter qos => accepts filter client → narrow qos ≤ 2
  | _ => True

theorem StoredQos.apply {t} (h : StoredQos t) {input : Input} (hn : input.Narrow) :
    StoredQos (input.apply t) := by
  cases input with
  | subscribe client filter options qosCap =>
    simp only [Input.apply]
    split
    · next hle => exact h.subscribe fun _ => (Nat.min_le_left _ _).trans hle
    · exact h
  | unsubscribe client filter => exact h.unsubscribe client filter
  | jsonSubscribe client filter qos => exact h.subscribe hn
  | publish | jsonPublish | forwarded => exact h

theorem stored_runInputs {inputs : List Input} (h : ∀ i ∈ inputs, i.Narrow) :
    StoredQos (runInputs inputs) :=
  foldlRecOn (motive := StoredQos) inputs _
    (fun path i hi => by simp [new, Node.subscribersAt_empty, SubscriberSet.empty] at hi)
    fun _ ht i hi => ht.apply (h i hi)

/-- A run never holds or plans another QoS exactly when none of its JSON subscriptions brings
one. -/
theorem only_three_qos_iff (inputs : List Input) :
    (∀ before, before <+: inputs → OnlyThreeQos (runInputs before)) ↔ ∀ i ∈ inputs, i.Narrow := by
  constructor
  · intro h i hi
    obtain ⟨before, after, rfl⟩ := append_of_mem hi
    have hstored := (h (before ++ [i]) ⟨after, by simp⟩).1
    cases i with
    | jsonSubscribe client filter qos =>
      intro ha
      rw [runInputs, foldl_append] at hstored
      exact hstored _ _ ((mem_apply_subscribe ha).2 (.inl ⟨rfl, rfl⟩))
    | _ => trivial
  · intro h before hbefore
    have hstored := stored_runInputs fun i hi => h i (hbefore.subset hi)
    exact ⟨hstored, fun _ _ _ _ _ _ _ hd => hstored.deliveries hd⟩

/-- A JSON subscription with QoS 3 is stored with it, and one with 256 as QoS 0. -/
theorem json_subscription_qos :
    ¬ OnlyThreeQos (runInputs [.jsonSubscribe [0x63] [0x61] 3]) ∧ narrow 256 = 0 := by
  refine ⟨fun h => ?_, by decide⟩
  exact absurd (h.1 [[0x61]] ⟨[0x63], 3, false, false, 0⟩ (by decide)) (by decide)

end Mqtts

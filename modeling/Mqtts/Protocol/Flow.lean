import Mathlib.Data.Fintype.Card
import Mathlib.Algebra.Order.Ring.Int
import Mqtts.Lib.Runs

/-!
# Flow control of a connection

`allocate_outbound` goes once around the 65535 identifiers from where it stopped the last time,
skips those in flight, and asks a callback about the others. It asks about none of them twice, so
what the callback says in a call is a function of the identifier, whatever the callback depends on.
-/

namespace Mqtts.Flow

/-- `uint16_t`. -/
abbrev PacketId := Fin 65536

instance packetIdsNeZero : NeZero 65536 := ⟨by decide⟩

/-! ## Sets of identifiers -/

/-- A set of packet identifiers in 1024 words of 64 bits, with the number of members beside it. -/
structure PacketIdSet where
  word : Fin 1024 → BitVec 64 := fun _ => 0
  /-- `uint16_t`. -/
  count : Nat := 0

namespace PacketIdSet

open Nat

variable (s : PacketIdSet) (id : PacketId)

/-- `id >> 6`. -/
def wordOf : Fin 1024 :=
  ⟨id.val >>> 6, by rw [shiftRight_eq_div_pow]; omega⟩

/-- `id & 63`. -/
def bitOf : Nat := id.val &&& 63

def holds : Bool :=
  ((s.word (wordOf id) >>> bitOf id) &&& 1#64) != 0#64

def test : Bool :=
  if id = 0 then false else s.holds id

def setWord (w : BitVec 64) : Fin 1024 → BitVec 64 :=
  fun i => if i = wordOf id then w else s.word i

def add : PacketIdSet :=
  if id = 0 ∨ s.test id then s
  else
    { word := s.setWord id (s.word (wordOf id) ||| (1#64 <<< bitOf id))
      count := (s.count + 1) % 65536 }

def erase : PacketIdSet :=
  if s.test id then
    { word := s.setWord id (s.word (wordOf id) &&& ~~~(1#64 <<< bitOf id))
      count := (s.count + 65535) % 65536 }
  else s

/-! ### Bits -/

theorem bitOf_eq : bitOf id = id.val % 64 :=
  and_two_pow_sub_one_eq_mod id.val 6

theorem wordOf_val : (wordOf id).val = id.val / 64 :=
  shiftRight_eq_div_pow id.val 6

theorem bitOf_lt : bitOf id < 64 := by
  rw [bitOf_eq]
  exact Nat.mod_lt _ (by decide)

theorem eq_of_wordOf_bitOf {i j} (hw : wordOf i = wordOf j) (hb : bitOf i = bitOf j) : i = j := by
  have hval : (wordOf i).val = (wordOf j).val := congrArg Fin.val hw
  rw [wordOf_val, wordOf_val] at hval
  rw [bitOf_eq, bitOf_eq] at hb
  exact Fin.ext (by omega)

open BitVec

theorem and_one_ne_zero (w : BitVec 64) (b : Nat) :
    (((w >>> b) &&& 1#64) != 0#64) = w.getLsbD b := by
  have hbit : (w >>> b) &&& 1#64 = if w.getLsbD b then 1#64 else 0#64 := by
    refine eq_of_getLsbD_eq ?_
    intro i hi
    by_cases h0 : i = 0
    · subst h0
      cases h : w.getLsbD b <;> simp [h]
    · cases h : w.getLsbD b <;> simp [h0]
  rw [hbit]
  cases w.getLsbD b <;> rfl

theorem holds_eq :
    s.holds id = (s.word (wordOf id)).getLsbD (bitOf id) :=
  and_one_ne_zero _ _

theorem getLsbD_one_shiftLeft {b i} (hi : i < 64) : (1#64 <<< b).getLsbD i = decide (i = b) := by
  rw [getLsbD_shiftLeft, getLsbD_one]
  by_cases h : i = b
  · subst h
    simp [hi]
  · have hne : i < b ∨ ¬ i - b = 0 := by omega
    rcases hne with hlt | hsub
    · simp [hlt, h]
    · simp [hsub, h]

theorem holds_setWord (j : PacketId) (w n) : holds ⟨s.setWord id w, n⟩ j =
    if wordOf j = wordOf id then w.getLsbD (bitOf j) else s.holds j := by
  rw [holds_eq, holds_eq]
  show getLsbD (if wordOf j = wordOf id then _ else _) _ = _
  split <;> rfl

theorem bitOf_eq_iff {j id} (hw : wordOf j = wordOf id) : bitOf j = bitOf id ↔ j = id :=
  ⟨eq_of_wordOf_bitOf hw, fun h => by rw [h]⟩

theorem holds_set (j : PacketId) (n : Nat) :
    holds ⟨s.setWord id (s.word (wordOf id) ||| (1#64 <<< bitOf id)), n⟩ j =
      (decide (j = id) || s.holds j) := by
  rw [holds_setWord]
  split_ifs with hw
  · rw [getLsbD_or, getLsbD_one_shiftLeft (bitOf_lt j), holds_eq, hw, Bool.or_comm]
    simp only [bitOf_eq_iff hw]
  · have hne : j ≠ id := fun h => hw (by rw [h])
    simp [hne]

theorem holds_clear (j : PacketId) (n : Nat) :
    holds ⟨s.setWord id (s.word (wordOf id) &&& ~~~(1#64 <<< bitOf id)), n⟩ j =
      (!decide (j = id) && s.holds j) := by
  rw [holds_setWord]
  split_ifs with hw
  · rw [getLsbD_and, getLsbD_not, getLsbD_one_shiftLeft (bitOf_lt j), holds_eq, hw, Bool.and_comm]
    simp only [bitOf_eq_iff hw, bitOf_lt, decide_true, Bool.true_and]
  · have hne : j ≠ id := fun h => hw (by rw [h])
    simp [hne]

/-! ### Members -/

def members : Finset PacketId := Finset.univ.filter fun id => s.holds id

@[simp] theorem mem_members {s : PacketIdSet} {id} : id ∈ s.members ↔ s.holds id := by
  simp [members]

structure Counted : Prop where
  count : s.count = s.members.card
  zero : (0 : PacketId) ∉ s.members

variable {s id} {j : PacketId}

open Finset

theorem counted_empty : Counted {} := by
  have hempty : members {} = ∅ := by
    refine eq_empty_of_forall_notMem ?_
    intro id hid
    rw [mem_members, holds_eq] at hid
    cases getLsbD_zero.symm.trans hid
  refine ⟨?_, ?_⟩ <;> rw [hempty]
  · rfl
  · exact notMem_empty _

open Bool

theorem Counted.test_iff (h : s.Counted) : s.test id ↔ id ∈ s.members := by
  rw [test]
  by_cases h0 : id = 0
  · subst h0
    rw [if_pos rfl]
    exact ⟨fun hf => (false_ne_true hf).elim, fun hmem => (h.zero hmem).elim⟩
  · rw [if_neg h0, mem_members]

theorem card_le_of_zero_notMem {t : Finset PacketId} (h : (0 : PacketId) ∉ t) : t.card ≤ 65535 := by
  have hlt : t.card < (Finset.univ : Finset PacketId).card :=
    card_lt_card ⟨subset_univ _, fun hsub => h (hsub (mem_univ 0))⟩
  rw [Finset.card_univ, Fintype.card_fin] at hlt
  exact Nat.lt_succ_iff.1 hlt

theorem members_add (h : s.Counted) (hid : id ≠ 0) : (s.add id).members = insert id s.members := by
  rw [add]
  split
  · rename_i hmem
    exact (insert_eq_self.2 (h.test_iff.1 (hmem.resolve_left hid))).symm
  · ext j
    rw [mem_members, holds_set, mem_insert, mem_members, Bool.or_eq_true, decide_eq_true_eq]

theorem members_erase (h : s.Counted) : (s.erase id).members = s.members.erase id := by
  rw [erase]
  split
  · ext j
    rw [mem_members, holds_clear, mem_erase, mem_members, and_eq_true,
      not_eq_true', decide_eq_false_iff_not]
  · rename_i hmem
    rw [h.test_iff] at hmem
    exact (erase_eq_of_notMem hmem).symm

theorem Counted.add (h : s.Counted) (id : PacketId) : (s.add id).Counted := by
  by_cases hadd : id = 0 ∨ s.test id
  · have hsame : s.add id = s := if_pos hadd
    rw [hsame]
    exact h
  · obtain ⟨hid, htest⟩ := not_or.1 hadd
    have hnot : id ∉ s.members := fun hmem => htest (h.test_iff.2 hmem)
    have hzero : (0 : PacketId) ∉ (s.add id).members := by
      rw [members_add h hid, mem_insert]
      exact fun hmem => hmem.elim (fun heq => hid heq.symm) h.zero
    have hcard : (s.add id).members.card = s.count + 1 := by
      rw [members_add h hid, Finset.card_insert_of_notMem hnot, h.count]
    -- One member more still fits, since there are 65535 identifiers beside 0.
    have hle := card_le_of_zero_notMem hzero
    have hcount : (s.add id).count = (s.count + 1) % 65536 := by rw [PacketIdSet.add, if_neg hadd]
    refine ⟨?_, hzero⟩
    rw [hcount, hcard]
    omega

theorem Counted.erase (h : s.Counted) (id : PacketId) : (s.erase id).Counted := by
  by_cases htest : s.test id
  · have hmem : id ∈ s.members := h.test_iff.1 htest
    have hcount : (s.erase id).count = (s.count + 65535) % 65536 := by
      rw [PacketIdSet.erase, if_pos htest]
    have hpos : 0 < s.members.card := card_pos.2 ⟨id, hmem⟩
    have hle := card_le_of_zero_notMem h.zero
    refine ⟨?_, ?_⟩
    · rw [hcount, members_erase h, card_erase_of_mem hmem, h.count]
      omega
    · rw [members_erase h]
      exact fun h0 => h.zero (mem_of_mem_erase h0)
  · have hsame : s.erase id = s := if_neg htest
    rw [hsame]
    exact h

end PacketIdSet

/-! ## The flow -/

inductive Qos2Admit where
  | forward
  | duplicate
  | exceeded

inductive AllocateStatus where
  | ready
  | windowFull
  | busy
  | quota
  | exhausted
  deriving DecidableEq

inductive AckKind where
  | pubAck
  | pubRec
  | pubComp

inductive AckDisposition where
  | absent
  | unexpected
  | complete
  | continue

structure Allocation where
  status : AllocateStatus
  id : PacketId
  deriving DecidableEq

/-- The identifiers of inbound QoS 2 publications before their PUBREL, those in flight to the
client, those of them with QoS 2, and those of them that wait for a PUBCOMP. -/
structure ConnectionFlow where
  serverMaxPacketSize : Nat := 1024 * 1024
  serverReceiveMaximum : Nat := 65535
  maxQos : Nat := 2
  clientReceiveMaximum : Nat := 65535
  clientMaximumPacketSize : Nat := 268435455
  nextPacketId : PacketId := 1
  inboundQos2 : PacketIdSet := {}
  outbound : PacketIdSet := {}
  outboundQos2 : PacketIdSet := {}
  awaitingPubcomp : PacketIdSet := {}

namespace ConnectionFlow

variable (f : ConnectionFlow) (id : PacketId)

def setServerLimits (maxPacketSize receiveMaximum maxQos : Nat) : ConnectionFlow :=
  { f with
    serverMaxPacketSize := if maxPacketSize ≠ 0 then maxPacketSize else 1
    serverReceiveMaximum := if receiveMaximum ≠ 0 then receiveMaximum else 1
    maxQos := maxQos }

def observeClient (receiveMaximum maximumPacketSize : Nat) : ConnectionFlow :=
  { f with
    clientReceiveMaximum := if receiveMaximum ≠ 0 then receiveMaximum else 65535
    clientMaximumPacketSize := if maximumPacketSize ≠ 0 then maximumPacketSize else 268435455 }

def outboundWindowFull : Bool :=
  decide (f.outbound.count ≥ f.clientReceiveMaximum) || decide (f.outbound.count ≥ 65535)

def advance : PacketId := if id = 65535 then 1 else id + 1

/-- The loop of `allocate_outbound`; `claim` is what the callback says about an identifier. -/
def tryIds (claim : PacketId → Int) (qos : Nat) : Nat → ConnectionFlow → Allocation × ConnectionFlow
  | 0, f => ({ status := .exhausted, id := 0 }, f)
  | tries + 1, f =>
    let id := f.nextPacketId
    let f := { f with nextPacketId := advance id }
    if f.outbound.test id then tryIds claim qos tries f
    else if claim id = 2 then ({ status := .busy, id := 0 }, f)
    else if claim id = 3 then ({ status := .quota, id := 0 }, f)
    else if claim id ≠ 0 then tryIds claim qos tries f
    else
      ({ status := .ready, id := id }, { f with
          outbound := f.outbound.add id
          outboundQos2 := if qos ≥ 2 then f.outboundQos2.add id else f.outboundQos2 })

/-- Without a callback every identifier is free. -/
def allocateOutbound (claim : Option (PacketId → Int)) (qos : Nat) : Allocation × ConnectionFlow :=
  if f.outboundWindowFull then ({ status := .windowFull, id := 0 }, f)
  else tryIds (claim.getD fun _ => 0) qos 65535 f

def releaseOutbound : ConnectionFlow :=
  { f with
    outbound := f.outbound.erase id
    outboundQos2 := f.outboundQos2.erase id
    awaitingPubcomp := f.awaitingPubcomp.erase id }

def classifyOutboundAck (kind : AckKind) : AckDisposition :=
  if !f.outbound.test id then .absent
  else
    let qos2 := f.outboundQos2.test id
    let awaiting := f.awaitingPubcomp.test id
    match kind with
    | .pubAck => if qos2 then .unexpected else .complete
    | .pubRec => if qos2 then .continue else .unexpected
    | .pubComp => if !qos2 || !awaiting then .unexpected else .complete

def markAwaitingPubcomp : ConnectionFlow :=
  if f.outboundQos2.test id then { f with awaitingPubcomp := f.awaitingPubcomp.add id } else f

def admitQos2 : Qos2Admit × ConnectionFlow :=
  if id ≠ 0 ∧ f.inboundQos2.test id then (.duplicate, f)
  else if f.inboundQos2.count ≥ f.serverReceiveMaximum then (.exceeded, f)
  else (.forward, { f with inboundQos2 := f.inboundQos2.add id })

def releaseQos2 : ConnectionFlow :=
  { f with inboundQos2 := f.inboundQos2.erase id }

/-! ## The invariant -/

/-- The invariant of the flow. -/
structure Sound (f : ConnectionFlow) : Prop where
  inbound : f.inboundQos2.Counted
  outbound : f.outbound.Counted
  qos2 : f.outboundQos2.Counted
  awaiting : f.awaitingPubcomp.Counted
  awaiting_subset : f.awaitingPubcomp.members ⊆ f.outboundQos2.members
  qos2_subset : f.outboundQos2.members ⊆ f.outbound.members
  cursor : f.nextPacketId ≠ 0

theorem sound_new : Sound {} where
  inbound := PacketIdSet.counted_empty
  outbound := PacketIdSet.counted_empty
  qos2 := PacketIdSet.counted_empty
  awaiting := PacketIdSet.counted_empty
  awaiting_subset := Finset.Subset.refl _
  qos2_subset := Finset.Subset.refl _
  cursor := by decide

variable {f id}

/-! ## Once around the identifiers -/

theorem advance_val (id : PacketId) :
    (advance id).val = if id.val = 65535 then 1 else id.val + 1 := by
  have hlast : id = 65535 ↔ id.val = 65535 := Fin.ext_iff
  rw [advance]
  by_cases h : id.val = 65535
  · rw [if_pos (hlast.2 h), if_pos h]
    rfl
  · rw [if_neg fun heq => h (hlast.1 heq), if_neg h, Fin.val_add]
    exact Nat.mod_eq_of_lt (by have := id.isLt; omega)

theorem advance_ne_zero (id : PacketId) : advance id ≠ 0 := by
  intro h
  have hval := congrArg Fin.val h
  rw [advance_val] at hval
  split at hval <;> cases hval

/-- The identifiers of a call are in a row. -/
theorem iterate_advance_val {n} (hn : n ≠ 0) (j : Nat) :
    (advance^[j] n).val = (n.val - 1 + j) % 65535 + 1 := by
  have hpos : 0 < n.val := Nat.pos_of_ne_zero fun h => hn (Fin.ext h)
  have hlt := n.isLt
  induction j with
  | zero =>
    rw [Function.iterate_zero_apply]
    omega
  | succ j ih =>
    rw [Function.iterate_succ_apply', advance_val, ih]
    split <;> omega

theorem exists_iterate_advance {n id} (hn : n ≠ 0) (hid : id ≠ 0) :
    ∃ j < 65535, advance^[j] n = id := by
  have hpos : 0 < n.val := Nat.pos_of_ne_zero fun h => hn (Fin.ext h)
  have hpos' : 0 < id.val := Nat.pos_of_ne_zero fun h => hid (Fin.ext h)
  have hlt := n.isLt
  have hlt' := id.isLt
  refine ⟨(id.val + 65535 - n.val) % 65535, Nat.mod_lt _ (by decide), ?_⟩
  rw [Fin.ext_iff, iterate_advance_val hn]
  omega

def Refuses (answer : Int) : Prop := answer ≠ 0 ∧ answer ≠ 2 ∧ answer ≠ 3

def taken (f : ConnectionFlow) (qos : Nat) (id next : PacketId) : ConnectionFlow :=
  { f with
    nextPacketId := next
    outbound := f.outbound.add id
    outboundQos2 := if qos ≥ 2 then f.outboundQos2.add id else f.outboundQos2 }

/-- What the loop does in a number of tries: it takes an identifier, or goes past refused ones. -/
inductive Tried (claim : PacketId → Int) (qos tries : Nat) (f : ConnectionFlow) :
    Allocation × ConnectionFlow → Prop
  | ready {id next : PacketId} (hid : id ≠ 0) (hnext : next ≠ 0)
      (hfree : f.outbound.test id = false) :
      Tried claim qos tries f ({ status := .ready, id := id }, f.taken qos id next)
  | moved {status : AllocateStatus} {next : PacketId} (hstatus : status ≠ .ready)
      (hnext : next ≠ 0)
      (hrefused : status = .exhausted → ∀ j < tries,
        f.outbound.test (advance^[j] f.nextPacketId) ∨
          Refuses (claim (advance^[j] f.nextPacketId))) :
      Tried claim qos tries f
        ({ status := status, id := 0 }, { f with nextPacketId := next })

theorem Tried.succ {claim : PacketId → Int} {qos tries} {r : Allocation × ConnectionFlow}
    (hrefused : f.outbound.test f.nextPacketId ∨ Refuses (claim f.nextPacketId))
    (h : Tried claim qos tries { f with nextPacketId := advance f.nextPacketId } r) :
    Tried claim qos (tries + 1) f r := by
  cases h with
  | ready hid hnext hfree => exact .ready hid hnext hfree
  | moved hstatus hnext hall =>
    refine .moved hstatus hnext ?_
    intro hexhausted j hj
    cases j with
    | zero => exact hrefused
    | succ j =>
      rw [Function.iterate_succ_apply]
      exact hall hexhausted j (Nat.lt_of_succ_lt_succ hj)

theorem tried (claim : PacketId → Int) (qos tries : Nat) (f : ConnectionFlow)
    (hcursor : f.nextPacketId ≠ 0) : Tried claim qos tries f (tryIds claim qos tries f) := by
  induction tries generalizing f with
  | zero =>
    refine .moved (by decide) hcursor ?_
    intro _ j hj
    exact (Nat.not_lt_zero j hj).elim
  | succ tries ih =>
    have hnext := advance_ne_zero f.nextPacketId
    have hgo := ih { f with nextPacketId := advance f.nextPacketId } hnext
    rw [tryIds]
    split
    · rename_i htest
      exact .succ (.inl htest) hgo
    rename_i htest
    split
    · exact .moved (by decide) hnext fun h => by cases h
    rename_i hbusy
    split
    · exact .moved (by decide) hnext fun h => by cases h
    rename_i hquota
    split
    · rename_i hclaim
      exact .succ (.inr ⟨hclaim, hbusy, hquota⟩) hgo
    · exact .ready hcursor hnext (Bool.eq_false_iff.2 htest)

/-! ## Operations -/

section

variable (h : f.Sound)
include h

theorem Sound.taken {qos next} (hid : id ≠ 0) (hnext : next ≠ 0) : (f.taken qos id next).Sound where
  inbound := h.inbound
  outbound := h.outbound.add id
  qos2 := by
    show PacketIdSet.Counted (if qos ≥ 2 then _ else _)
    split
    · exact h.qos2.add id
    · exact h.qos2
  awaiting := h.awaiting
  awaiting_subset := by
    show _ ⊆ PacketIdSet.members (if qos ≥ 2 then _ else _)
    split
    · rw [PacketIdSet.members_add h.qos2 hid]
      exact h.awaiting_subset.trans (Finset.subset_insert _ _)
    · exact h.awaiting_subset
  qos2_subset := by
    show PacketIdSet.members (if qos ≥ 2 then _ else _) ⊆ PacketIdSet.members (f.outbound.add id)
    rw [PacketIdSet.members_add h.outbound hid]
    split
    · rw [PacketIdSet.members_add h.qos2 hid]
      exact Finset.insert_subset_insert _ h.qos2_subset
    · exact h.qos2_subset.trans (Finset.subset_insert _ _)
  cursor := hnext

theorem Sound.allocateOutbound (claim : Option (PacketId → Int)) (qos : Nat) :
    (f.allocateOutbound claim qos).2.Sound := by
  rw [ConnectionFlow.allocateOutbound]
  split
  · exact h
  have htried := tried (claim.getD fun _ => 0) qos 65535 f h.cursor
  generalize tryIds (claim.getD fun _ => 0) qos 65535 f = r at htried ⊢
  cases htried with
  | ready hid hnext => exact h.taken hid hnext
  | moved _ hnext => exact { h with cursor := hnext }

theorem Sound.releaseOutbound (id : PacketId) : (f.releaseOutbound id).Sound where
  inbound := h.inbound
  outbound := h.outbound.erase id
  qos2 := h.qos2.erase id
  awaiting := h.awaiting.erase id
  awaiting_subset := by
    show PacketIdSet.members (f.awaitingPubcomp.erase id) ⊆
      PacketIdSet.members (f.outboundQos2.erase id)
    rw [PacketIdSet.members_erase h.awaiting, PacketIdSet.members_erase h.qos2]
    exact Finset.erase_subset_erase _ h.awaiting_subset
  qos2_subset := by
    show PacketIdSet.members (f.outboundQos2.erase id) ⊆ PacketIdSet.members (f.outbound.erase id)
    rw [PacketIdSet.members_erase h.qos2, PacketIdSet.members_erase h.outbound]
    exact Finset.erase_subset_erase _ h.qos2_subset
  cursor := h.cursor

theorem Sound.markAwaitingPubcomp (id : PacketId) : (f.markAwaitingPubcomp id).Sound := by
  rw [ConnectionFlow.markAwaitingPubcomp]
  split
  · rename_i htest
    have hmem : id ∈ f.outboundQos2.members := h.qos2.test_iff.1 htest
    have hid : id ≠ 0 := fun h0 => h.qos2.zero (h0 ▸ hmem)
    refine { h with awaiting := h.awaiting.add id, awaiting_subset := ?_ }
    rw [PacketIdSet.members_add h.awaiting hid]
    exact Finset.insert_subset hmem h.awaiting_subset
  · exact h

theorem Sound.admitQos2 (id : PacketId) : (f.admitQos2 id).2.Sound := by
  rw [ConnectionFlow.admitQos2]
  split_ifs
  · exact h
  · exact h
  · exact { h with inbound := h.inbound.add id }

theorem Sound.releaseQos2 (id : PacketId) : (f.releaseQos2 id).Sound :=
  { h with inbound := h.inbound.erase id }

end

end ConnectionFlow

/-! ## Runs -/

inductive Event where
  | allocateOutbound (claim : Option (PacketId → Int)) (qos : Nat)
  | releaseOutbound (id : PacketId)
  | classifyOutboundAck (id : PacketId) (kind : AckKind)
  | markAwaitingPubcomp (id : PacketId)
  | admitQos2 (id : PacketId)
  | releaseQos2 (id : PacketId)
  | setServerLimits (maxPacketSize receiveMaximum maxQos : Nat)
  | observeClient (receiveMaximum maximumPacketSize : Nat)

namespace ConnectionFlow

open Runs

def step (f : ConnectionFlow) : Event → Option ConnectionFlow
  | .allocateOutbound claim qos => some (f.allocateOutbound claim qos).2
  | .releaseOutbound id => some (f.releaseOutbound id)
  | .classifyOutboundAck _ _ => some f
  | .markAwaitingPubcomp id => some (f.markAwaitingPubcomp id)
  | .admitQos2 id => some (f.admitQos2 id).2
  | .releaseQos2 id => some (f.releaseQos2 id)
  | .setServerLimits size maximum qos => some (f.setServerLimits size maximum qos)
  | .observeClient maximum size => some (f.observeClient maximum size)

variable {f f' : ConnectionFlow}

theorem Sound.step {e} (h : f.Sound) (hstep : f.step e = some f') : f'.Sound := by
  cases e <;> cases hstep
  case allocateOutbound claim qos =>
    exact h.allocateOutbound claim qos
  case releaseOutbound id =>
    exact h.releaseOutbound id
  case classifyOutboundAck id kind =>
    exact h
  case markAwaitingPubcomp id =>
    exact h.markAwaitingPubcomp id
  case admitQos2 id =>
    exact h.admitQos2 id
  case releaseQos2 id =>
    exact h.releaseQos2 id
  case setServerLimits size maximum qos =>
    exact { h with }
  case observeClient maximum size =>
    exact { h with }

/-- Every operation keeps it. -/
theorem sound_of_reach (h : Reach step (fun _ _ => True) (· = {}) f) : f.Sound := by
  refine h.invariant ?_ ?_
  · rintro f rfl
    exact sound_new
  · intro f e f' hf _ hstep
    exact hf.step hstep

structure AllocationOk (f f' : ConnectionFlow) (claim : Option (PacketId → Int))
    (r : Allocation) : Prop where
  fresh : r.status = .ready → r.id ∉ f.outbound.members ∧ r.id ∈ f'.outbound.members
  window : r.status = .ready → f'.outbound.members.card ≤ f.clientReceiveMaximum
  exhausted : r.status = .exhausted → ∀ id, id ≠ 0 → id ∈ f.outbound.members ∨
    ∃ answers, claim = some answers ∧ Refuses (answers id)

theorem Sound.allocationOk (h : f.Sound) (claim : Option (PacketId → Int)) (qos : Nat) :
    AllocationOk f (f.allocateOutbound claim qos).2 claim (f.allocateOutbound claim qos).1 := by
  rw [ConnectionFlow.allocateOutbound]
  split
  · exact ⟨fun hr => (by cases hr), fun hr => (by cases hr), fun hr => (by cases hr)⟩
  rename_i hfull
  have htried := tried (claim.getD fun _ => 0) qos 65535 f h.cursor
  generalize tryIds (claim.getD fun _ => 0) qos 65535 f = r at htried ⊢
  cases htried with
  | @ready id next hid _ hfree =>
    have hnot : id ∉ f.outbound.members := by
      rw [← h.outbound.test_iff, hfree]
      exact Bool.false_ne_true
    have hmembers : (f.taken qos id next).outbound.members = insert id f.outbound.members :=
      PacketIdSet.members_add h.outbound hid
    refine ⟨fun _ => ⟨hnot, ?_⟩, fun _ => ?_, fun hr => (by cases hr)⟩
    · rw [hmembers]
      exact Finset.mem_insert_self _ _
    · rw [hmembers, Finset.card_insert_of_notMem hnot, ← h.outbound.count]
      simp only [outboundWindowFull, Bool.or_eq_true, decide_eq_true_eq, not_or, not_le,
        ge_iff_le] at hfull
      exact hfull.1
  | moved hstatus _ hrefused =>
    refine ⟨fun hr => (hstatus hr).elim, fun hr => (hstatus hr).elim, ?_⟩
    intro hr id hid
    obtain ⟨j, hj, rfl⟩ := exists_iterate_advance h.cursor hid
    rcases hrefused hr j hj with htest | hno
    · exact .inl (h.outbound.test_iff.1 htest)
    · cases claim with
      | none => exact (hno.1 rfl).elim
      | some answers => exact .inr ⟨answers, rfl, hno⟩

/-- In every reachable state the sets are exact and nested, and every allocation is sound. -/
theorem flow_sound (h : Reach step (fun _ _ => True) (· = {}) f) : f.Sound ∧ ∀ claim qos,
      AllocationOk f (f.allocateOutbound claim qos).2 claim (f.allocateOutbound claim qos).1 := by
  have hsound := sound_of_reach h
  exact ⟨hsound, fun claim qos => hsound.allocationOk claim qos⟩

/-- A QoS 2 publication is in flight and waits for its PUBCOMP; identifier 2 is refused. -/
theorem flow_sound_sent : ∃ f, Reach step (fun _ _ => True) (· = {}) f ∧ f.outbound.test 1 ∧
      f.awaitingPubcomp.test 1 ∧
      (f.allocateOutbound (some fun id => if id = 2 then 1 else 0) 1).1 = ⟨.ready, 3⟩ ∧
      f.Sound ∧ ∀ claim qos,
        AllocationOk f (f.allocateOutbound claim qos).2 claim (f.allocateOutbound claim qos).1 := by
  have hreach : Reach step (fun _ _ => True) (· = {})
      (((allocateOutbound {} none 2).2).markAwaitingPubcomp 1) :=
    .step (e := .markAwaitingPubcomp 1)
      (.step (e := .allocateOutbound none 2) (.start rfl) trivial rfl) trivial rfl
  exact ⟨_, hreach, by decide +kernel, by decide +kernel, by decide +kernel, flow_sound hreach⟩

end ConnectionFlow

end Mqtts.Flow

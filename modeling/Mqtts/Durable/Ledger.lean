import Mqtts.Durable.StateSpec
import Mathlib.Algebra.BigOperators.Group.Finset.Basic

/-!
# The ledger of the store

The store counts its deliveries by hand: how many there are, their bytes per session and over all,
the references of every message, and the bytes of the messages that are referenced. Whatever the
store does to the ledger is made of two kinds of steps, and each of them keeps `Sound`, which is the
ledger with what a new delivery has to know about the others.
-/

namespace Mqtts.Durable

open Std (ExtTreeMap ExtTreeSet)
open Maps Finset Nat

/-! ## Sums over deliveries -/

def Session.load (t : Session) (f : Nat → Nat) : Nat := mapSum (fun _ d => f d.message) t.pending

def Store.load (s : Store) (f : Nat → Nat) : Nat := mapSum (fun _ t => t.load f) s.sessions

def Store.deliveriesOf (s : Store) (r : Nat) : Nat := s.load fun r' => if r' = r then 1 else 0

def Store.sizeOf (s : Store) (r : Nat) : Nat := (s.messages r).wire.length

/-- The bytes that a message counts in `unique_bytes`. -/
def Store.heldBytes (s : Store) (r : Nat) : Nat :=
  if (s.messages r).references = 0 then 0 else s.sizeOf r

def Message.stamp (m : Message) : Nat × Nat × Nat := (m.id, m.wire.length, m.references)

namespace Store

/-- The counters of the store are what they count. -/
structure Exact (s : Store) : Prop where
  pending : s.pending = mapSum (fun _ t => t.pending.size) s.sessions
  bytes : s.bytes = mapSum (fun _ t => t.bytes) s.sessions
  session : ∀ {c : Str} {t}, s.sessions[c]? = some t → t.bytes = t.load s.sizeOf
  references : ∀ r, (s.messages r).references = s.deliveriesOf r
  uniqueBytes : s.uniqueBytes = ∑ r ∈ Finset.range s.objects, s.heldBytes r

structure SessionBounded (cfg : Config) (t : Session) : Prop where
  pending : t.pending.size ≤ cfg.maxMessagesPerSession
  bytes : t.bytes ≤ cfg.maxBytesPerSession

/-- The counters are within the limits of the configuration. -/
structure Bounded (cfg : Config) (s : Store) : Prop where
  pending : s.pending ≤ cfg.maxMessages
  bytes : s.bytes ≤ cfg.maxBytes
  session : ∀ {c : Str} {t}, s.sessions[c]? = some t → SessionBounded cfg t

def Keyed (s : Store) : Prop :=
  ∀ (c : Str) t, s.sessions[c]? = some t → t.client = c

def account (o : Option Session) : Nat × ExtTreeMap Nat Nat :=
  o.elim (0, ∅) fun t => (t.bytes, t.pending.map fun _ d => d.message)

variable {cfg : Config} {s s' : Store}

theorem load_account (o : Option Session) (f : Nat → Nat) :
    o.elim 0 (fun t => t.load f) = mapSum (fun _ r => f r) (account o).2 := by
  cases o with
  | none => exact (mapSum_empty fun (_ : Nat) r => f r).symm
  | some t => exact (mapSum_map (f := fun _ r => f r) (fun _ d => d.message) t.pending).symm

theorem size_account (t : Session) : (account (some t)).2.size = t.pending.size := by
  rw [size_eq_mapSum, size_eq_mapSum]
  exact mapSum_map (fun _ d => d.message) t.pending

theorem pending_eq_load (s : Store) :
    mapSum (fun _ t => t.pending.size) s.sessions = s.load (fun _ => 1) :=
  mapSum_congr fun _ t _ => size_eq_mapSum t.pending

section

variable (h : ∀ c : Str, account (s'.sessions[c]?) = account (s.sessions[c]?))
include h

theorem load_of_accounts (f : Nat → Nat) : s'.load f = s.load f :=
  mapSum_eq_of_elim fun c => by rw [load_account, load_account, h]

theorem bytes_of_accounts :
    mapSum (fun _ t => t.bytes) s'.sessions = mapSum (fun _ t => t.bytes) s.sessions := by
  refine mapSum_eq_of_elim fun c => ?_
  have hbytes : ∀ o : Option Session, o.elim 0 (·.bytes) = (account o).1 := fun o => by
    cases o <;> rfl
  rw [hbytes, hbytes, h]

end

theorem bounded_iff : s.Bounded cfg ↔ s.pending ≤ cfg.maxMessages ∧ s.bytes ≤ cfg.maxBytes ∧
    ∀ c : Str, (account (s.sessions[c]?)).2.size ≤ cfg.maxMessagesPerSession ∧
      (account (s.sessions[c]?)).1 ≤ cfg.maxBytesPerSession := by
  constructor
  · intro h
    refine ⟨h.pending, h.bytes, fun c => ?_⟩
    cases ht : s.sessions[c]? with
    | none => exact ⟨zero_le _, zero_le _⟩
    | some t => exact ⟨(size_account t).trans_le (h.session ht).pending, (h.session ht).bytes⟩
  · rintro ⟨hpending, hbytes, hsession⟩
    refine ⟨hpending, hbytes, fun {c t} ht => ?_⟩
    have hc := hsession c
    rw [ht, size_account] at hc
    exact ⟨hc.1, hc.2⟩

/-! ## Sound stores -/

/-- The ledger is exact, and the deliveries are filed under the identifiers of their messages, of
which none is ahead of the counter. -/
structure Sound (s : Store) : Prop where
  keyed : s.Keyed
  linked : ∀ {c : Str} {id r}, (account (s.sessions[c]?)).2[id]? = some r →
    r < s.objects ∧ (s.messages r).id = id
  numbered : ∀ r, (s.messages r).id ≤ s.nextId
  exact : s.Exact

namespace Sound

theorem account_congr (h : s.Sound) {f g : Nat → Nat} (hfg : ∀ r < s.objects, f r = g r) (c : Str) :
    mapSum (fun _ r => f r) (account (s.sessions[c]?)).2 =
      mapSum (fun _ r => g r) (account (s.sessions[c]?)).2 :=
  mapSum_congr fun _ r hr => hfg r (h.linked hr).1

theorem bytes_account (h : s.Sound) (c : Str) : (account (s.sessions[c]?)).1 =
    mapSum (fun _ r => s.sizeOf r) (account (s.sessions[c]?)).2 := by
  rw [← load_account]
  cases ht : s.sessions[c]? with
  | none => rfl
  | some t => exact h.exact.session ht

theorem deliveriesOf_unallocated (h : s.Sound) {r : Nat} (hr : s.objects ≤ r) :
    s.deliveriesOf r = 0 := by
  have hzero : s.deliveriesOf r = s.load (fun _ => 0) := by
    rw [deliveriesOf, load, load]
    refine mapSum_congr fun c t ht => ?_
    have hterm := h.account_congr (f := fun r' => if r' = r then 1 else 0) (g := fun _ => 0)
      (fun r' hr' => if_neg (by omega)) c
    rw [← load_account, ← load_account, ht] at hterm
    exact hterm
  rw [hzero, load, mapSum]
  simp [Session.load, mapSum]

theorem fresh (h : s.Sound) {id : Nat} (hid : s.nextId < id) (c : Str) :
    (account (s.sessions[c]?)).2[id]? = none := by
  cases hr : (account (s.sessions[c]?)).2[id]? with
  | none => rfl
  | some r =>
    have hle := h.numbered r
    rw [(h.linked hr).2] at hle
    omega

end Sound

/-! ## Steps that leave the deliveries alone -/

/-- A step that leaves the accounts of the sessions and what counts of the messages alone. -/
structure Still (s s' : Store) : Prop where
  nextId : s.nextId ≤ s'.nextId
  objects : s.objects ≤ s'.objects
  pending : s'.pending = s.pending
  bytes : s'.bytes = s.bytes
  uniqueBytes : s'.uniqueBytes = s.uniqueBytes
  messages : ∀ r, (s'.messages r).stamp = (s.messages r).stamp ∨
    (s.objects ≤ r ∧ (s'.messages r).references = 0 ∧ (s'.messages r).id ≤ s'.nextId)
  accounts : ∀ c : Str, account (s'.sessions[c]?) = account (s.sessions[c]?)
  keyed : s.Keyed → s'.Keyed

namespace Still

theorem refl (s : Store) : Still s s :=
  ⟨le_rfl, le_rfl, rfl, rfl, rfl, fun _ => .inl rfl, fun _ => rfl, id⟩

theorem numbers {nextId objects} (hid : s.nextId ≤ nextId) (hobjects : s.objects ≤ objects) :
    Still s { s with nextId := nextId, objects := objects } :=
  ⟨hid, hobjects, rfl, rfl, rfl, fun _ => .inl rfl, fun _ => rfl, id⟩

theorem bounded (h : Still s s') (hb : s.Bounded cfg) : s'.Bounded cfg := by
  rw [bounded_iff] at hb ⊢
  rw [h.pending, h.bytes]
  simp only [h.accounts]
  exact hb

theorem references (h : Still s s') (hs : s.Sound) (r : Nat) :
    (s'.messages r).references = (s.messages r).references := by
  rcases h.messages r with hsame | ⟨hr, hzero, -⟩
  · exact congrArg (·.2.2) hsame
  · rw [hzero, hs.exact.references, hs.deliveriesOf_unallocated hr]

theorem sound (h : Still s s') (hs : s.Sound) : s'.Sound := by
  have hstamp : ∀ r < s.objects, (s'.messages r).stamp = (s.messages r).stamp := fun r hr =>
    (h.messages r).resolve_right fun hnew => by omega
  have hsize : ∀ r < s.objects, s'.sizeOf r = s.sizeOf r := fun r hr =>
    congrArg (·.2.1) (hstamp r hr)
  have hload := load_of_accounts h.accounts
  refine ⟨h.keyed hs.keyed, fun {c id r} hr => ?_, fun r => ?_, ?_, ?_, fun {c t} ht => ?_, fun r
    => ?_,
    ?_⟩
  · rw [h.accounts] at hr
    obtain ⟨hlt, hid⟩ := hs.linked hr
    exact ⟨hlt.trans_le h.objects, (congrArg Prod.fst (hstamp r hlt)).trans hid⟩
  · rcases h.messages r with hsame | ⟨-, -, hid⟩
    · exact (congrArg Prod.fst hsame).trans_le ((hs.numbered r).trans h.nextId)
    · exact hid
  · rw [h.pending, hs.exact.pending, pending_eq_load, pending_eq_load, hload]
  · rw [h.bytes, hs.exact.bytes, bytes_of_accounts h.accounts]
  · have hbytes := hs.bytes_account c
    rw [← hs.account_congr hsize, ← h.accounts, ht, ← load_account] at hbytes
    exact hbytes
  · rw [h.references hs, hs.exact.references, deliveriesOf, deliveriesOf, hload]
  · have hheld : ∀ r < s.objects, s'.heldBytes r = s.heldBytes r := fun r hr => by
      rw [heldBytes, heldBytes, h.references hs, hsize r hr]
    have hnew : ∀ r ∈ Finset.range s'.objects, r ∉ Finset.range s.objects → s'.heldBytes r = 0 := by
      intro r _ hr
      rw [mem_range, not_lt] at hr
      rw [heldBytes, h.references hs, hs.exact.references, hs.deliveriesOf_unallocated hr, if_pos
        rfl]
    rw [h.uniqueBytes, hs.exact.uniqueBytes, ← sum_subset (range_subset_range.2 h.objects) hnew]
    exact sum_congr rfl fun r hr => (hheld r (mem_range.1 hr)).symm

end Still

variable {c : Str} {t : Session}

theorem keyed_put (h : s.Keyed) (ht : t.client = c) : (s.put c t).Keyed := by
  intro c' u hu
  rw [put, get_insert] at hu
  split at hu
  · next hc =>
      cases hu
      exact ht.trans hc
  · exact h c' u hu

theorem still_put (haccount : account (some t) = account (s.sessions[c]?))
    (hclient : s.Keyed → t.client = c) : Still s (s.put c t) := by
  refine { Still.refl s with accounts := fun c' => ?_, keyed := fun h => keyed_put h (hclient h) }
  rw [put, get_insert]
  split
  · next hc => exact hc ▸ haccount
  · rfl

theorem still_erase (h : account (s.sessions[c]?) = account none) :
    Still s { s with sessions := s.sessions.erase c } := by
  refine { Still.refl s with accounts := fun c' => ?_, keyed := fun h c' t ht => ?_ }
  · rw [get_erase]
    split
    · next hc => exact hc ▸ h.symm
    · rfl
  · rw [get_erase] at ht
    split at ht
    · cases ht
    · exact h c' t ht

theorem still_setMessage {r m} (h : m.stamp = (s.messages r).stamp) :
    Still s (s.setMessage r m) := by
  refine { Still.refl s with messages := fun r' => .inl ?_ }
  by_cases hr : r' = r
  · subst hr
    simp only [setMessage, Function.update_self, h]
  · simp only [setMessage, Function.update_of_ne hr]

theorem still_draft {m nextId} (hid : s.nextId ≤ nextId) (hm : m.references = 0)
    (hle : m.id ≤ nextId) : Still s
      { s.setMessage s.objects m with nextId := nextId, objects := s.objects + 1 } := by
  refine { Still.refl s with nextId := hid, objects := le_succ _, messages := fun r => ?_ }
  by_cases hr : r = s.objects
  · subst hr
    refine .inr ⟨le_rfl, ?_⟩
    simp only [setMessage, Function.update_self]
    exact ⟨hm, hle⟩
  · left
    simp only [setMessage, Function.update_of_ne hr]

theorem account_insert {id d d'} (hd : t.pending[id]? = some d)
    (hmessage : d'.message = d.message) :
    account (some { t with pending := t.pending.insert id d' }) = account (some t) := by
  refine Prod.ext rfl (ExtTreeMap.ext_getElem? fun id' => ?_)
  simp only [account, Option.elim_some, ExtTreeMap.getElem?_map, get_insert]
  split
  · next hid => rw [← hid, hd, Option.map_some, Option.map_some, hmessage]
  · rfl

/-! ## Deliveries that come and go -/

/-- A delivery comes, or read backwards goes. -/
structure OneMore (s s' : Store) (c : Str) (id r : Nat) : Prop where
  account : account (s'.sessions[c]?) =
    ((account (s.sessions[c]?)).1 + s.sizeOf r, (account (s.sessions[c]?)).2.insert id r)
  others : ∀ c', c ≠ c' → s'.sessions[c']? = s.sessions[c']?
  keyed : s.Keyed ↔ s'.Keyed
  fresh : (Store.account (s.sessions[c]?)).2[id]? = none
  allocated : r < s.objects
  named : (s.messages r).id = id
  nextId : s'.nextId = s.nextId
  objects : s'.objects = s.objects
  ids : ∀ r', (s'.messages r').id = (s.messages r').id
  sizes : ∀ r', s'.sizeOf r' = s.sizeOf r'
  references : ∀ r', (s'.messages r').references =
    (s.messages r').references + if r = r' then 1 else 0
  pending : s'.pending = s.pending + 1
  bytes : s'.bytes = s.bytes + s.sizeOf r
  uniqueBytes : s'.uniqueBytes =
    s.uniqueBytes + if (s.messages r).references = 0 then s.sizeOf r else 0

theorem sum_range_update {f f' : Nat → Nat} {m r} (hr : r < m) (h : ∀ k, k ≠ r → f' k = f k) :
    ∑ k ∈ Finset.range m, f' k + f r = ∑ k ∈ Finset.range m, f k + f' r := by
  have hmem := mem_range.2 hr
  have hrest : ∑ k ∈ (Finset.range m).erase r, f' k = ∑ k ∈ (Finset.range m).erase r, f k :=
    sum_congr rfl fun k hk => h k (ne_of_mem_erase hk)
  have hleft := add_sum_erase _ f' hmem
  have hright := add_sum_erase _ f hmem
  omega

namespace OneMore

variable {c : Str} {id r : Nat} (h : OneMore s s' c id r)

include h

theorem mapSum_sessions (f : Session → Nat) {n}
    (hc : (s'.sessions[c]?).elim 0 f = (s.sessions[c]?).elim 0 f + n) :
    mapSum (fun _ t => f t) s'.sessions = mapSum (fun _ t => f t) s.sessions + n := by
  have hrest : mapSum (fun _ t => f t) (s'.sessions.erase c) =
      mapSum (fun _ t => f t) (s.sessions.erase c) := mapSum_eq_of_elim fun c' => by
    rw [get_erase, get_erase]
    split
    · rfl
    · next hne => rw [h.others c' hne]
  rw [← mapSum_erase (fun _ t => f t) s'.sessions c, ← mapSum_erase (fun _ t => f t) s.sessions c,
    hrest, hc, add_assoc]

theorem load_own (f : Nat → Nat) : mapSum (fun _ r => f r) (Store.account (s'.sessions[c]?)).2 =
    mapSum (fun _ r => f r) (Store.account (s.sessions[c]?)).2 + f r := by
  rw [h.account]
  exact mapSum_insert_of_none h.fresh r

theorem load_eq (f : Nat → Nat) : s'.load f = s.load f + f r := by
  refine h.mapSum_sessions (fun t => t.load f) ?_
  rw [load_account, load_account, h.load_own]

theorem bytes_eq : mapSum (fun _ t => t.bytes) s'.sessions =
    mapSum (fun _ t => t.bytes) s.sessions + s.sizeOf r := by
  refine h.mapSum_sessions (·.bytes) ?_
  have hbytes : ∀ o : Option Session, o.elim 0 (·.bytes) = (Store.account o).1 := fun o => by
    cases o <;> rfl
  rw [hbytes, hbytes, h.account]

theorem heldBytes_eq : ∑ k ∈ Finset.range s'.objects, s'.heldBytes k =
    ∑ k ∈ Finset.range s.objects, s.heldBytes k +
      if (s.messages r).references = 0 then s.sizeOf r else 0 := by
  have hother : ∀ k, k ≠ r → s'.heldBytes k = s.heldBytes k := by
    intro k hk
    rw [heldBytes, heldBytes, h.sizes, h.references, if_neg (Ne.symm hk), add_zero]
  have hself : s'.heldBytes r = s.sizeOf r := by
    rw [heldBytes, h.references, if_pos rfl, if_neg (succ_ne_zero _), h.sizes]
  have hsum := sum_range_update h.allocated hother
  rw [hself] at hsum
  have hheld : s.heldBytes r = if (s.messages r).references = 0 then 0 else s.sizeOf r := rfl
  rw [hheld] at hsum
  rw [h.objects]
  split at hsum
  · next hzero => rw [if_pos hzero, ← hsum, add_zero]
  · next hpos => rw [if_neg hpos, add_right_cancel hsum, add_zero]

theorem session_iff : (∀ c' : Str, (Store.account (s'.sessions[c']?)).1 =
      mapSum (fun _ r => s'.sizeOf r) (Store.account (s'.sessions[c']?)).2) ↔
    ∀ c' : Str, (Store.account (s.sessions[c']?)).1 =
      mapSum (fun _ r => s.sizeOf r) (Store.account (s.sessions[c']?)).2 := by
  refine forall_congr' fun c' => ?_
  simp only [h.sizes]
  by_cases hc : c = c'
  · subst hc
    rw [h.load_own s.sizeOf, h.account]
    exact add_right_cancel_iff
  · rw [h.others c' hc]

theorem references_iff : (∀ r', (s'.messages r').references = s'.deliveriesOf r') ↔
    ∀ r', (s.messages r').references = s.deliveriesOf r' := by
  refine forall_congr' fun r' => ?_
  rw [h.references, deliveriesOf, h.load_eq, deliveriesOf]
  exact add_right_cancel_iff

theorem linked_iff : (∀ {c' : Str} {id' k : Nat}, (Store.account (s'.sessions[c']?)).2[id']? = some
    k →
      k < s'.objects ∧ (s'.messages k).id = id') ↔
    ∀ {c' : Str} {id' k : Nat}, (Store.account (s.sessions[c']?)).2[id']? = some k →
      k < s.objects ∧ (s.messages k).id = id' := by
  simp only [h.ids, h.objects]
  constructor <;> intro hall c' id' k hk
  · by_cases hc : c = c'
    · subst hc
      have hne : id ≠ id' := by
        rintro rfl
        rw [h.fresh] at hk
        cases hk
      have hk' : (Store.account (s'.sessions[c]?)).2[id']? = some k := by
        rw [h.account, get_insert, if_neg hne]
        exact hk
      exact hall hk'
    · rw [← h.others c' hc] at hk
      exact hall hk
  · by_cases hc : c = c'
    · subst hc
      rw [h.account, get_insert] at hk
      split at hk
      · next hid =>
          cases hk
          exact ⟨h.allocated, h.named.trans hid⟩
      · exact hall hk
    · rw [h.others c' hc] at hk
      exact hall hk

theorem sound_iff : s'.Sound ↔ s.Sound := by
  have hexact : ∀ {s : Store}, (∀ c' : Str, (Store.account (s.sessions[c']?)).1 =
      mapSum (fun _ r => s.sizeOf r) (Store.account (s.sessions[c']?)).2) →
      ∀ {c : Str} {t : Session}, s.sessions[c]? = some t → t.bytes = t.load s.sizeOf := by
    intro s hall c t ht
    have hc := hall c
    rw [ht, ← load_account] at hc
    exact hc
  have hpending : s'.pending = mapSum (fun _ t => t.pending.size) s'.sessions ↔
      s.pending = mapSum (fun _ t => t.pending.size) s.sessions := by
    rw [pending_eq_load, pending_eq_load, h.load_eq, h.pending]
    exact add_right_cancel_iff
  have hbytes : s'.bytes = mapSum (fun _ t => t.bytes) s'.sessions ↔
      s.bytes = mapSum (fun _ t => t.bytes) s.sessions := by
    rw [h.bytes_eq, h.bytes]
    exact add_right_cancel_iff
  have hunique : (s'.uniqueBytes = ∑ r ∈ Finset.range s'.objects, s'.heldBytes r) ↔
      s.uniqueBytes = ∑ r ∈ Finset.range s.objects, s.heldBytes r := by
    rw [h.heldBytes_eq, h.uniqueBytes]
    exact add_right_cancel_iff
  constructor <;> intro hs
  · refine ⟨h.keyed.2 hs.keyed, h.linked_iff.1 hs.linked, fun r' => ?_, hpending.1 hs.exact.pending,
      hbytes.1 hs.exact.bytes, hexact (h.session_iff.1 hs.bytes_account),
      h.references_iff.1 hs.exact.references, hunique.1 hs.exact.uniqueBytes⟩
    rw [← h.ids, ← h.nextId]
    exact hs.numbered r'
  · refine ⟨h.keyed.1 hs.keyed, h.linked_iff.2 hs.linked, fun r' => ?_, hpending.2 hs.exact.pending,
      hbytes.2 hs.exact.bytes, hexact (h.session_iff.2 hs.bytes_account),
      h.references_iff.2 hs.exact.references, hunique.2 hs.exact.uniqueBytes⟩
    rw [h.ids, h.nextId]
    exact hs.numbered r'

theorem size_account_eq : (Store.account (s'.sessions[c]?)).2.size =
    (Store.account (s.sessions[c]?)).2.size + 1 := by
  have hsum := h.load_own fun _ => 1
  rw [← size_eq_mapSum, ← size_eq_mapSum] at hsum
  exact hsum

theorem bounded (hb : s'.Bounded cfg) : s.Bounded cfg := by
  rw [bounded_iff] at hb ⊢
  rw [h.pending, h.bytes] at hb
  refine ⟨by omega, by omega, fun c' => ?_⟩
  have hc' := hb.2.2 c'
  by_cases hc : c = c'
  · subst hc
    rw [h.size_account_eq, h.account] at hc'
    omega
  · rw [h.others c' hc] at hc'
    exact hc'

theorem bounded_of_room (hb : s.Bounded cfg) (hpending : s.pending < cfg.maxMessages)
    (hbytes : s.bytes + s.sizeOf r ≤ cfg.maxBytes)
    (hsize : (Store.account (s.sessions[c]?)).2.size < cfg.maxMessagesPerSession)
    (hown : (Store.account (s.sessions[c]?)).1 + s.sizeOf r ≤ cfg.maxBytesPerSession) :
    s'.Bounded cfg := by
  rw [bounded_iff] at hb ⊢
  rw [h.pending, h.bytes]
  refine ⟨hpending, hbytes, fun c' => ?_⟩
  by_cases hc : c = c'
  · subst hc
    rw [h.size_account_eq, h.account]
    exact ⟨hsize, hown⟩
  · rw [h.others c' hc]
    exact hb.2.2 c'

end OneMore

end Store

end Mqtts.Durable

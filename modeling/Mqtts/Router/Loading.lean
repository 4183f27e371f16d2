import Mqtts.Lib.Codec
import Mqtts.Router.Agreement

/-!
# Snapshots of the router

`save_to_snapshot` writes the entries of the map, one record each, and `load_from_snapshot` reads
them back and subscribes them one by one. Both hold `snapshot_mutex_`, a lock that its holder cannot
take a second time: a call that tries never returns, which is `none` here. The loader calls the
public `subscribe`, which takes the lock again.
-/

namespace Mqtts.Router

open Codec Decoder PersistentTree
open Std (ExtTreeMap)

/-! ## Records -/

inductive ReadError where
  | truncated

instance : Malformed ReadError where
  truncated := .truncated
  trailing := .truncated

def LogOp.byte : LogOp → UInt8
  | .subscribe => 1
  | .unsubscribe => 2
  | .unsubscribeAll => 3
  | .clientConnect => 4
  | .clientDisconnect => 5
  | .other code => code

/-- The cast of a byte to `RouterLogOpType`. -/
def LogOp.ofByte (b : UInt8) : LogOp :=
  if b = 1 then .subscribe
  else if b = 2 then .unsubscribe
  else if b = 3 then .unsubscribeAll
  else if b = 4 then .clientConnect
  else if b = 5 then .clientDisconnect
  else .other b

variable (s : Str) (e : RouterLogEntry)

def covered : Str := s.take (s.length % 2 ^ 32)

def putField : Str := putWord 4 s.length ++ covered s

theorem length_covered_lt : (covered s).length < 2 ^ 32 := by
  rw [covered, List.length_take]
  have := Nat.mod_lt s.length (show 0 < 2 ^ 32 by decide)
  omega

theorem covered_of_lt {s} (h : s.length < 2 ^ 32) : covered s = s := by
  rw [covered, Nat.mod_eq_of_lt h, List.take_length]

theorem decodes_field : Decodes (text : Decoder ReadError Str) (putField s) (covered s) := by
  have hlength : putWord 4 (covered s).length = putWord 4 s.length := by
    have hle : s.length % 2 ^ 32 ≤ s.length := Nat.mod_le _ _
    rw [covered, List.length_take, Nat.min_eq_left hle]
    exact putWord_mod 4 s.length
  have h : Decodes (text : Decoder ReadError Str) (putText (covered s)) (covered s) :=
    decodes_text (length_covered_lt s)
  rwa [putText, hlength] at h

def putSnapshotEntry : Str :=
  putByte e.opType.byte.toNat ++ (putField e.serverId ++ (putField e.clientId ++
    (putField e.topicFilter ++ putByte e.qos.toNat)))

/-- The reads of one round of `load_from_snapshot`. -/
def readSnapshotEntry : Decoder ReadError RouterLogEntry := do
  let op ← byte
  let server ← text
  let client ← text
  let filter ← text
  let qos ← byte
  pure { opType := .ofByte (UInt8.ofNat op), serverId := server, clientId := client,
         topicFilter := filter, qos := UInt8.ofNat qos }

def snapshotEntryOf : RouterLogEntry :=
  { opType := .ofByte e.opType.byte, serverId := covered e.serverId,
    clientId := covered e.clientId, topicFilter := covered e.topicFilter, qos := e.qos }

/-- A record of a snapshot is read back whatever its fields are. -/
theorem decodes_snapshotEntry :
    Decodes readSnapshotEntry (putSnapshotEntry e) (snapshotEntryOf e) := by
  refine (decodes_byte (UInt8.toNat_lt _)).bind ((decodes_field _).bind ((decodes_field _).bind
    ((decodes_field _).bind ?_)))
  have h := (decodes_byte (ε := ReadError) (UInt8.toNat_lt e.qos)).map fun qos =>
    ({ opType := .ofByte (UInt8.ofNat e.opType.byte.toNat), serverId := covered e.serverId,
       clientId := covered e.clientId, topicFilter := covered e.topicFilter,
       qos := UInt8.ofNat qos } : RouterLogEntry)
  simpa only [snapshotEntryOf, UInt8.ofNat_toNat] using h

/-! ## Saving and loading -/

structure EntryOrder where
  run : List (Str × RouterLogEntry) → List (Str × RouterLogEntry)
  perm : ∀ l, (run l).Perm l

/-- The file that `save_to_snapshot` writes. -/
def PersistentTree.saveToSnapshot (t : PersistentTree) (o : EntryOrder) : Str :=
  putWord 4 2 ++ (putWord 8 t.entries.size ++
    (o.run t.entries.toList).flatMap fun e => putSnapshotEntry e.2)

/-- A call that takes `snapshot_mutex_`, on a thread that may hold it already: then the call never
returns. -/
def lockGuard {α : Type} (held : Bool) (body : Option α) : Option α := if held then none else body

/-- The public `subscribe`. -/
def PersistentTree.lockedSubscribe (t : PersistentTree) (held : Bool) (server filter client : Str)
    (qos : UInt8) : Option (Int × PersistentTree) :=
  lockGuard held (some (t.subscribe server filter client qos))

/-- The loop of `load_from_snapshot`, which holds the lock. -/
def PersistentTree.loadEntries (t : PersistentTree) : Nat → Str → Option (Int × PersistentTree)
  | 0, _ => some (0, t)
  | count + 1, file =>
    match readSnapshotEntry file with
    | .error _ => some (-910, t)
    | .ok (e, rest) =>
      match t.lockedSubscribe true e.serverId e.topicFilter e.clientId e.qos with
      | none => none
      | some (ret, t) => if ret = 0 then t.loadEntries count rest else some (ret, t)

def readSnapshotHeader : Decoder ReadError (Nat × Nat) := do
  let version ← word 4
  let count ← word 8
  pure (version, count)

/-- `load_from_snapshot` of a file, if there is one. -/
def PersistentTree.loadFromSnapshot (t : PersistentTree) (held : Bool) (file : Option Str) :
    Option (Int × PersistentTree) :=
  lockGuard held
    (match file with
      | none => some (0, t)
      | some file =>
        match readSnapshotHeader file with
        | .error _ => some (-910, t)
        | .ok ((version, count), rest) =>
          if version ≠ 2 then some (-910, t) else t.loadEntries count rest)

/-- What a snapshot is for: it can be loaded into an empty tree, and then the subscriptions and the
routes are those of the tree that was saved. -/
def RoundTrip (t : PersistentTree) (o : EntryOrder) : Prop :=
  ∃ t', new.loadFromSnapshot false (some (t.saveToSnapshot o)) = some (0, t') ∧
    (∀ k : Str, t'.entries[k]? = t.entries[k]?) ∧
    (∀ full path qos, Holds t'.tree full path qos ↔ Holds t.tree full path qos) ∧
    ∀ order (sort : ClientSort) topic publisher,
      findRouteTargets t'.tree order sort topic publisher =
        findRouteTargets t.tree order sort topic publisher

variable {t : PersistentTree} {o : EntryOrder}

theorem loadFromSnapshot_save (t' : PersistentTree) :
    t'.loadFromSnapshot false (some (t.saveToSnapshot o)) =
      t'.loadEntries (t.entries.size % 256 ^ 8)
        ((o.run t.entries.toList).flatMap fun e => putSnapshotEntry e.2) := by
  have hversion : Decodes (word 4 : Decoder ReadError Nat) (putWord 4 2) 2 :=
    decodes_word (by decide)
  have hcount : Decodes (word 8 : Decoder ReadError Nat) (putWord 8 t.entries.size)
      (t.entries.size % 256 ^ 8) := by
    rw [← putWord_mod]
    exact decodes_word (Nat.mod_lt _ (by decide))
  have hheader : Decodes readSnapshotHeader (putWord 4 2 ++ putWord 8 t.entries.size)
      (2, t.entries.size % 256 ^ 8) :=
    hversion.bind (hcount.map (2, ·))
  unfold loadFromSnapshot saveToSnapshot
  dsimp only
  rw [← List.append_assoc, hheader]
  rfl

/-- The loader waits for the lock with the first entry. -/
theorem loadEntries_of_entry (t' : PersistentTree) (count : Nat) (e : RouterLogEntry) (rest : Str) :
    t'.loadEntries (count + 1) (putSnapshotEntry e ++ rest) = none := by
  rw [loadEntries, decodes_snapshotEntry e rest]
  rfl

theorem loadFromSnapshot_of_empty (hentries : t.entries = ∅) (t' : PersistentTree) :
    t'.loadFromSnapshot false (some (t.saveToSnapshot o)) = some (0, t') := by
  have hlist : o.run t.entries.toList = [] := by
    rw [hentries]
    exact (o.perm (∅ : ExtTreeMap Str RouterLogEntry).toList).eq_nil
  rw [loadFromSnapshot_save, hlist, hentries, ExtTreeMap.size_empty]
  rfl

theorem not_holds_new (full : Str) (path : List Str) (qos : Nat) :
    ¬ Holds new.tree full path qos := by
  rintro ⟨i, hi, -⟩
  simp only [new, TopicTree.new] at hi
  rw [Node.subscribersAt_empty] at hi
  cases hi

theorem collect_eq_nil {tree} (h : ∀ full path qos, ¬ Holds tree full path qos)
    (order : SetOrder) (levels : List Str) : tree.root.collect order true levels = [] := by
  rw [List.eq_nil_iff_forall_not_mem]
  intro i hi
  obtain ⟨path, -, hmem⟩ := (Node.mem_collect levels tree.root).1 hi
  exact h i.clientId path i.qos ⟨i, hmem, rfl, rfl⟩

theorem findRouteTargets_congr {tree tree'} (h : ∀ full path qos, ¬ Holds tree full path qos)
    (h' : ∀ full path qos, ¬ Holds tree' full path qos) (order : SetOrder) (sort : ClientSort)
    (topic publisher : Str) :
    findRouteTargets tree order sort topic publisher =
      findRouteTargets tree' order sort topic publisher := by
  have hfind : tree.findSubscribers order sort topic = tree'.findSubscribers order sort topic := by
    unfold TopicTree.findSubscribers
    split
    · rfl
    · split
      · rfl
      · rw [collect_eq_nil h, collect_eq_nil h']
  rw [findRouteTargets, findRouteTargets, hfind]

/-- A snapshot brings the tree back exactly when there is nothing to bring back. -/
theorem roundTrip_iff (t : PersistentTree) (o : EntryOrder) :
    RoundTrip t o ↔ t.entries = ∅ ∧ ∀ full path qos, ¬ Holds t.tree full path qos := by
  constructor
  · rintro ⟨t', hload, hentries, hholds, -⟩
    rw [loadFromSnapshot_save] at hload
    -- a loader that returns has read no entry
    have hnew : t' = .new := by
      cases hcount : t.entries.size % 256 ^ 8 with
      | zero =>
        rw [hcount, loadEntries] at hload
        exact (Prod.mk.inj (Option.some.inj hload)).2.symm
      | succ count =>
        rw [hcount] at hload
        cases hlist : o.run t.entries.toList with
        | nil =>
          have hlength := (o.perm t.entries.toList).length_eq
          rw [hlist, ExtTreeMap.length_toList] at hlength
          rw [← hlength] at hcount
          cases hcount
        | cons e rest =>
          rw [hlist, List.flatMap_cons, loadEntries_of_entry] at hload
          cases hload
    subst hnew
    refine ⟨?_, fun full path qos hheld => not_holds_new full path qos ((hholds _ _ _).2 hheld)⟩
    refine ExtTreeMap.ext_getElem? fun k => ?_
    rw [← hentries k]
    rfl
  · rintro ⟨hentries, hnone⟩
    refine ⟨.new, loadFromSnapshot_of_empty hentries .new, fun k => by rw [hentries]; rfl,
      fun full path qos => ?_, ?_⟩
    · exact ⟨fun h => absurd h (not_holds_new _ _ _), fun h => absurd h (hnone _ _ _)⟩
    · exact findRouteTargets_congr not_holds_new hnone

theorem load_sampleSubscribed : new.loadFromSnapshot false
    (some (sampleSubscribed.topicTree.saveToSnapshot ⟨id, fun _ => .refl _⟩)) = none := by
  have hsize : sampleSubscribed.topicTree.entries.size % 256 ^ 8 = 0 + 1 := by decide +kernel
  have hlist : sampleSubscribed.topicTree.entries.toList = [(sampleEntry.key, sampleEntry)] := by
    decide +kernel
  rw [loadFromSnapshot_save, hsize, hlist]
  exact loadEntries_of_entry _ _ _ _

/-- A router with one subscription writes a snapshot that it cannot load: the loader waits for the
lock that it holds. -/
theorem snapshot_blocks : ClearRun sampleSubscribed ∧ new.loadFromSnapshot false
        (some (sampleSubscribed.topicTree.saveToSnapshot ⟨id, fun _ => .refl _⟩)) = none :=
  ⟨clearRun_sampleSubscribed, load_sampleSubscribed⟩

end Mqtts.Router

import Mqtts.Topic.Levels
import Mqtts.Lib.Runs

/-!
# Permissions in Redis and in SQLite

The Redis provider keeps the permissions of a user as members `pattern:permission` of a set. The
loader splits a member at its last colon and `remove_topic_permission` at its first.

The SQLite provider caches the rows of a user. The entries of all users have one time of the last
update, so a reload for one user vouches for the entries of the others, and an entry can outlive its
time to live.
-/

namespace Mqtts.AuthStores

open List

inductive Permission where
  | none
  | read
  | write
  | readWrite

def Permission.value : Permission → Nat
  | .none => 0
  | .read => 1
  | .write => 2
  | .readWrite => 3

/-- `TopicPermission`; the permission is cast from an integer. -/
structure TopicPermission where
  topicPattern : Str
  permission : Nat
  deriving DecidableEq

namespace Redis

/-! ## The set of a user -/

inductive Call where
  | addTopicPermission (pattern : Str) (permission : Permission)
  | removeTopicPermission (pattern : Str)

def permissionValue (pattern : Str) (permission : Permission) : Str :=
  pattern ++ [0x3A, UInt8.ofNat (0x30 + permission.value)]

def beforeColon (s : Str) : Str := s.takeWhile (· ≠ 0x3A)

def apply (members : List Str) : Call → List Str
  | .addTopicPermission pattern permission =>
    let value := permissionValue pattern permission
    if members.contains value then members else members ++ [value]
  | .removeTopicPermission pattern => members.filter fun m => beforeColon m ≠ pattern

/-- `std::atoi` of decimal digits. -/
def atoi (s : Str) : Nat :=
  (s.takeWhile fun b => 0x30 ≤ b ∧ b ≤ 0x39).foldl (fun n b => 10 * n + (b.toNat - 0x30)) 0

def parseMember (member : Str) : Option TopicPermission :=
  match member.reverse.dropWhile (· ≠ 0x3A) with
  | [] => none
  | _ :: pattern => some ⟨pattern.reverse, atoi (member.reverse.takeWhile (· ≠ 0x3A)).reverse⟩

/-- `load_user_permissions_from_redis`. -/
def load (members : List Str) : List TopicPermission := members.filterMap parseMember

/-! ## What the calls grant -/

/-- A removal finds its pattern and no other before the first colon. -/
def Call.Clear (granted : List TopicPermission) : Call → Prop
  | .addTopicPermission _ _ => True
  | .removeTopicPermission pattern =>
    ∀ t ∈ granted, beforeColon t.topicPattern = pattern ↔ t.topicPattern = pattern

variable {members : List Str} {granted : List TopicPermission}

/-- Every member was written by `add_topic_permission`. -/
def Written (members : List Str) : Prop :=
  ∀ m ∈ members, ∃ pattern permission, m = permissionValue pattern permission

theorem mem_add {m pattern permission} :
    m ∈ apply members (.addTopicPermission pattern permission) ↔
      m ∈ members ∨ m = permissionValue pattern permission := by
  rw [apply]
  split_ifs with hmem
  · exact ⟨.inl, fun h => h.elim id fun h => h ▸ contains_iff_mem.1 hmem⟩
  · rw [mem_append, mem_singleton]

theorem Written.apply (h : Written members) (call : Call) : Written (apply members call) := by
  intro m hm
  cases call with
  | addTopicPermission pattern permission =>
    exact (mem_add.1 hm).elim (h m) fun heq => ⟨pattern, permission, heq⟩
  | removeTopicPermission pattern => exact h m (mem_filter.1 hm).1

end Redis

namespace Sqlite

/-! ## The cache over the table -/

/-- The table, which another process may change, and `topic_cache_` over it. The reloads with
their times, the last one first, and the moments with what the table held are the history of the
run; no function reads them. -/
structure State where
  now : Nat
  table : Str → List TopicPermission
  userPermissions : Str → Option (List TopicPermission) := fun _ => none
  lastUpdate : Nat := 0
  reloads : List (Str × Nat) := []
  moments : List (Nat × (Str → List TopicPermission)) := [(now, table)]

inductive Event where
  | tick (elapsed : Nat)
  | change (table : Str → List TopicPermission)
  | call (username : Str)

inductive Query where
  | checkTopicAccess (topic : Str) (permission : Permission)
  | getUserPermissions

/-- `TOPIC_CACHE_TTL_SECONDS`, in milliseconds. -/
def ttl : Nat := 300000

def Query.answer (matchTopicPattern : Str → Str → Bool) (permissions : List TopicPermission) :
    Query → List TopicPermission ⊕ Bool
  | .checkTopicAccess topic permission =>
    .inr (permissions.any fun p => matchTopicPattern topic p.topicPattern &&
      (p.permission == Permission.readWrite.value || p.permission == permission.value))
  | .getUserPermissions => .inl permissions

namespace State

variable (x : State) (username : Str)

/-- The entry of the user, if `is_topic_cache_valid`. -/
def cached : Option (List TopicPermission) :=
  if (x.now - x.lastUpdate) / 1000 < 300 then x.userPermissions username else none

def updateTopicCache : State :=
  { x with
    userPermissions := Function.update x.userPermissions username (some (x.table username))
    lastUpdate := x.now
    reloads := (username, x.now) :: x.reloads }

def serve : List TopicPermission × State :=
  match x.cached username with
  | some permissions => (permissions, x)
  | none => (x.table username, x.updateTopicCache username)

def record : State := { x with moments := (x.now, x.table) :: x.moments }

def step (x : State) : Event → Option State
  | .tick elapsed => some { x with now := x.now + elapsed }.record
  | .change table => some { x with table := table }.record
  | .call username => some (x.serve username).2

def Start (x : State) : Prop := ∃ now table, x = { now := now, table := table }

/-- Only the user of the last reload is known to have been loaded at `lastUpdate`. -/
structure Inv (x : State) : Prop where
  current : (x.now, x.table) ∈ x.moments
  empty : x.reloads = [] → ∀ username, x.userPermissions username = none
  newest : ∀ reload ∈ x.reloads.head?, reload.2 = x.lastUpdate ∧
    ∃ table, (x.lastUpdate, table) ∈ x.moments ∧
      x.userPermissions reload.1 = some (table reload.1)

variable {x username} {x' : State} {event : Event}

/-- The table's changes and the passing of time add a moment and leave the cache alone. -/
theorem Inv.record (hempty : x.reloads = [] → ∀ username, x.userPermissions username = none)
    (hnewest : ∀ reload ∈ x.reloads.head?, reload.2 = x.lastUpdate ∧
      ∃ table, (x.lastUpdate, table) ∈ x.moments ∧
        x.userPermissions reload.1 = some (table reload.1)) :
    Inv x.record := by
  refine ⟨mem_cons_self, hempty, fun reload hreload => ?_⟩
  obtain ⟨htime, table, hmem, hentry⟩ := hnewest reload hreload
  exact ⟨htime, table, mem_cons_of_mem _ hmem, hentry⟩

theorem Inv.serve (h : Inv x) (username : Str) : Inv (x.serve username).2 := by
  unfold State.serve
  cases x.cached username with
  | some permissions => exact h
  | none =>
    refine ⟨h.current, fun hnil => absurd hnil (cons_ne_nil _ _), fun reload hreload => ?_⟩
    cases hreload
    exact ⟨rfl, x.table, h.current, Function.update_self ..⟩

theorem Inv.step (h : Inv x) (hstep : x.step event = some x') : Inv x' := by
  cases event <;> cases hstep
  case tick elapsed =>
    exact .record h.empty h.newest
  case change table =>
    exact .record h.empty h.newest
  case call username =>
    exact h.serve username

theorem inv_of_reach (h : Runs.Reach step (fun _ _ => True) Start x) : Inv x := by
  refine h.invariant (fun s hs => ?_) fun s e s' hs _ => hs.step
  obtain ⟨now, table, rfl⟩ := hs
  exact ⟨mem_cons_self, fun _ _ => rfl, fun reload hreload => by cases hreload⟩

end State

end Sqlite

end Mqtts.AuthStores

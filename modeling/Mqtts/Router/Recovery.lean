import Mqtts.Router.Loading

/-!
# Recovery of the router

A router that starts loads its snapshot and then replays its whole redo log on top (`initialize`).
The log is read up to the first entry that is not complete; what is behind stays in the file, and
entries that are flushed later come after it. A crash cuts the log at any byte; the calls then are
those up to the last one whose entry is complete.
-/

namespace Mqtts.Router

open List Codec Decoder PersistentTree

/-! ## The redo log -/

/-- `write_log_entry_to_file`. -/
def putLogEntry (e : RouterLogEntry) : Str :=
  putByte e.opType.byte.toNat ++ (putWord 8 e.sequenceId.toNat ++ (putWord 8 e.timestampMs.toNat ++
    (putField e.serverId ++ (putField e.clientId ++ (putField e.topicFilter ++
      putByte e.qos.toNat)))))

/-- `read_log_entry_from_file`. -/
def readLogEntry : Decoder ReadError RouterLogEntry := do
  let op ← byte
  let sequence ← word 8
  let timestamp ← word 8
  let server ← text
  let client ← text
  let filter ← text
  let qos ← byte
  pure { opType := .ofByte (UInt8.ofNat op), sequenceId := UInt64.ofNat sequence,
         timestampMs := UInt64.ofNat timestamp, serverId := server, clientId := client,
         topicFilter := filter, qos := UInt8.ofNat qos }

/-- The loop of `load_and_replay`; every round reads a byte at least. -/
def replayLoop : Nat → PersistentTree → UInt64 → Str → Int × PersistentTree × UInt64
  | 0, t, next, _ => (0, t, next)
  | rounds + 1, t, next, file =>
    match readLogEntry file with
    | .error _ => (0, t, next)
    | .ok (e, rest) =>
      let (ret, t) := t.applyRedoLogEntry e
      if ret = 0 then
        replayLoop rounds t (if e.sequenceId ≥ next then e.sequenceId + 1 else next) rest
      else (ret, t, next)

variable (t : PersistentTree) (calls : List Request)

def loadAndReplay (file : Str) : Int × PersistentTree × UInt64 :=
  let (ret, t, next) := replayLoop (file.length + 1) t 1 file
  (if ret = -911 then 0 else ret, t, next)

/-- `MQTTRouterService::initialize` on the two files: what it returns, if it returns, and the
router. -/
def initializeRouter (snapshot : Option Str) (log : Str) : Option (Int × RouterState) :=
  match new.loadFromSnapshot false snapshot with
  | none => none
  | some (ret, t) =>
    if ret ≠ 0 then some (ret, { topicTree := t, pending := [], nextSequenceId := 1 })
    else
      let (ret, t, next) := loadAndReplay t log
      some (ret, { topicTree := t, pending := [], nextSequenceId := next })

def readEntries : Nat → Str → List RouterLogEntry × Str
  | 0, file => ([], file)
  | rounds + 1, file =>
    match readLogEntry file with
    | .error _ => ([], file)
    | .ok (e, rest) => (e :: (readEntries rounds rest).1, (readEntries rounds rest).2)

def tornTail (log : Str) : Str := (readEntries (log.length + 1) log).2

/-! ## A router with its files -/

/-- A router with its two files, and what the recovery is measured by: the calls so far, which of
them the entries in memory belong to, and for every entry that was flushed the call and where the
entry ends in the file. -/
structure Sys where
  router : RouterState
  log : Str
  snapshot : Option Str
  calls : List Request
  owners : List Nat
  /-- For every flushed entry its call and where it ends in the log. -/
  flushed : List (Nat × Nat)

def Sys.new : Sys :=
  { router := .new, log := [], snapshot := none, calls := [], owners := [], flushed := [] }

inductive SysEvent where
  | handle (now : UInt64) (request : Request)
  | flush
  | save (order : EntryOrder)
  /-- A crash that leaves `cut` bytes of the log, and the start after it. -/
  | crash (cut : Nat)

def entryEnds : Nat → List RouterLogEntry → List Nat
  | _, [] => []
  | base, e :: rest => (base + (putLogEntry e).length) :: entryEnds (base + (putLogEntry e).length)
    rest

def callsUpTo (flushed : List (Nat × Nat)) : Nat :=
  match flushed.getLast? with
  | none => 0
  | some p => p.1 + 1

def Sys.surviving (x : Sys) (cut : Nat) : List (Nat × Nat) := x.flushed.filter (·.2 ≤ cut)

def Sys.step (x : Sys) : SysEvent → Option Sys
  | .handle now request =>
    let (ret, router) := x.router.handle now request
    some { x with
      router
      calls := x.calls ++ [request]
      owners := if ret = 0 then x.owners ++ [x.calls.length] else x.owners }
  | .flush =>
    some { x with
      router := { x.router with pending := [] }
      log := x.log ++ x.router.pending.flatMap putLogEntry
      owners := []
      flushed := x.flushed ++ x.owners.zip (entryEnds x.log.length x.router.pending) }
  | .save order => some { x with snapshot := some (x.router.topicTree.saveToSnapshot order) }
  | .crash cut =>
    match initializeRouter x.snapshot (x.log.take cut) with
    | some (0, router) =>
      some { x with
        router
        log := x.log.take cut
        calls := x.calls.take (callsUpTo (x.surviving cut))
        owners := []
        flushed := x.surviving cut }
    | _ => none

def treeAfter : PersistentTree :=
  calls.foldl (fun t request => (request.onTree t).2) t

/-- The start after a crash succeeds, and the subscriptions are those after some of the calls, up
to one, among which are all whose entries are complete. -/
def Recovers (x : Sys) (cut : Nat) : Prop :=
  ∃ router count, initializeRouter x.snapshot (x.log.take cut) = some (0, router) ∧
    (∀ p ∈ x.surviving cut, p.1 < count) ∧
    ∀ full path qos, Holds router.topicTree.tree full path qos ↔
      Holds (treeAfter .new (x.calls.take count)).tree full path qos

def Request.Short (request : Request) : Prop :=
  request.logEntry.serverId.length < 2 ^ 32 ∧ request.logEntry.clientId.length < 2 ^ 32 ∧
    request.logEntry.topicFilter.length < 2 ^ 32

/-- What a step asks of the state: a client that disconnects has no subscriptions, entries are only
flushed to a log without a torn tail, and a snapshot is only saved when the map is empty. -/
def SysEvent.Safe (x : Sys) : SysEvent → Prop
  | .handle _ request => request.Short ∧ ∀ server client,
      request = .clientDisconnect server client →
        HoldsNone x.router.topicTree (makeFullClientId server client)
  | .flush => x.router.pending ≠ [] → tornTail x.log = []
  | .save _ => x.router.topicTree.entries = ∅
  | .crash _ => True

/-! ## Entries -/

def RouterLogEntry.content (e : RouterLogEntry) : RouterLogEntry :=
  { e with sequenceId := 0, timestampMs := 0 }

theorem ofByte_byte_logEntry (request : Request) :
    LogOp.ofByte request.logEntry.opType.byte = request.logEntry.opType := by
  cases request <;> rfl

variable {e : RouterLogEntry} {request : Request} {es : List RouterLogEntry} {torn : Str}
  {x x' : Sys} {done : List Nat}

theorem content_fields (h : e.content = request.logEntry) :
    e.opType = request.logEntry.opType ∧ e.serverId = request.logEntry.serverId ∧
      e.clientId = request.logEntry.clientId ∧ e.topicFilter = request.logEntry.topicFilter ∧
      e.qos = request.logEntry.qos := by
  rw [← h]
  exact ⟨rfl, rfl, rfl, rfl, rfl⟩

theorem decodes_logEntry (hshort : request.Short) (h : e.content = request.logEntry) :
    Decodes readLogEntry (putLogEntry e) e := by
  obtain ⟨hop, hserver, hclient, hfilter, -⟩ := content_fields h
  have hbyte : LogOp.ofByte e.opType.byte = e.opType := by rw [hop, ofByte_byte_logEntry]
  have hword : ∀ n : UInt64, Decodes (word 8 : Decoder ReadError Nat) (putWord 8 n.toNat) n.toNat :=
    fun n => decodes_word n.toNat_lt
  have hfield : ∀ {s : Str}, s.length < 2 ^ 32 →
      Decodes (text : Decoder ReadError Str) (putField s) s := by
    intro s hs
    have := decodes_field s
    rwa [covered_of_lt hs] at this
  refine (decodes_byte (UInt8.toNat_lt _)).bind ((hword _).bind ((hword _).bind
    ((hfield (hserver ▸ hshort.1)).bind ((hfield (hclient ▸ hshort.2.1)).bind
      ((hfield (hfilter ▸ hshort.2.2)).bind ?_)))))
  have hlast := (decodes_byte (ε := ReadError) (UInt8.toNat_lt e.qos)).map fun qos =>
    ({ opType := .ofByte (UInt8.ofNat e.opType.byte.toNat),
       sequenceId := UInt64.ofNat e.sequenceId.toNat, timestampMs := UInt64.ofNat
         e.timestampMs.toNat,
       serverId := e.serverId, clientId := e.clientId, topicFilter := e.topicFilter,
       qos := UInt8.ofNat qos } : RouterLogEntry)
  simpa only [UInt8.ofNat_toNat, UInt64.ofNat_toNat, hbyte] using hlast

theorem extends_readLogEntry : Extends readLogEntry :=
  extends_byte.bind fun _ => (extends_word 8).bind fun _ => (extends_word 8).bind fun _ =>
    extends_text.bind fun _ => extends_text.bind fun _ => extends_text.bind fun _ =>
      extends_byte.bind fun _ => extends_pure _

theorem length_putLogEntry_pos (e : RouterLogEntry) : 0 < (putLogEntry e).length := by
  rw [putLogEntry, length_append, length_putByte]
  omega

theorem applyRedoLogEntry_eq (h : e.content = request.logEntry) (t : PersistentTree) :
    t.applyRedoLogEntry e = request.onTree t := by
  obtain ⟨hop, hserver, hclient, hfilter, hqos⟩ := content_fields h
  unfold applyRedoLogEntry
  rw [hop, hserver, hclient, hfilter, hqos]
  cases request <;> rfl

/-! ## The calls that were logged -/

/-- The calls that return `MQ_SUCCESS`, with their numbers from `i` on. -/
def loggedCalls : Nat → PersistentTree → List Request → List (Nat × Request)
  | _, _, [] => []
  | i, t, call :: calls =>
    if (call.onTree t).1 = 0 then (i, call) :: loggedCalls (i + 1) (call.onTree t).2 calls
    else loggedCalls (i + 1) (call.onTree t).2 calls

/-- The calls that fail leave the tree as it is. -/
def Quiet : PersistentTree → List Request → Prop
  | _, [] => True
  | t, call :: calls =>
    ((call.onTree t).1 ≠ 0 → (call.onTree t).2 = t) ∧ Quiet (call.onTree t).2 calls

/-- The calls all return `MQ_SUCCESS`, and lead from one tree to the other. -/
def Applies : PersistentTree → List Request → PersistentTree → Prop
  | t, [], t' => t' = t
  | t, call :: calls, t' => (call.onTree t).1 = 0 ∧ Applies (call.onTree t).2 calls t'

theorem loggedCalls_append (call : Request) : ∀ calls i t,
    loggedCalls i t (calls ++ [call]) = loggedCalls i t calls ++
      if (call.onTree (treeAfter t calls)).1 = 0 then [(i + calls.length, call)] else []
  | [], i, t => by
    rw [nil_append, loggedCalls]
    rfl
  | first :: calls, i, t => by
    rw [cons_append, loggedCalls, loggedCalls, loggedCalls_append call calls]
    have hindex : i + 1 + calls.length = i + (first :: calls).length := by
      rw [length_cons]
      omega
    rw [hindex]
    split <;> rfl

theorem loggedCalls_lt : ∀ {calls i t p},
    p ∈ loggedCalls i t calls → i ≤ p.1 ∧ p.1 < i + calls.length ∧ p.2 ∈ calls
  | [], _, _, _, h => absurd h not_mem_nil
  | call :: calls, i, t, p, h => by
    rw [loggedCalls] at h
    split at h
    · rcases mem_cons.1 h with rfl | h
      · exact ⟨Nat.le_refl _, by rw [length_cons]; omega, mem_cons_self⟩
      · obtain ⟨hle, hlt, hmem⟩ := loggedCalls_lt h
        exact ⟨by omega, by rw [length_cons]; omega, mem_cons_of_mem _ hmem⟩
    · obtain ⟨hle, hlt, hmem⟩ := loggedCalls_lt h
      exact ⟨by omega, by rw [length_cons]; omega, mem_cons_of_mem _ hmem⟩

theorem quiet_append {call} : ∀ {calls t},
    Quiet t calls → ((call.onTree (treeAfter t calls)).1 ≠ 0 →
      (call.onTree (treeAfter t calls)).2 = treeAfter t calls) → Quiet t (calls ++ [call])
  | [], _, _, hcall => ⟨hcall, trivial⟩
  | _ :: _, _, h, hcall => ⟨h.1, quiet_append h.2 hcall⟩

theorem quiet_take : ∀ (n : Nat) {calls t}, Quiet t calls → Quiet t (calls.take n)
  | 0, _, _, _ => trivial
  | _ + 1, [], _, _ => trivial
  | n + 1, _ :: _, _, h => ⟨h.1, quiet_take n h.2⟩

theorem applies_loggedCalls : ∀ {calls} (i : Nat) {t}, Quiet t calls →
    Applies t ((loggedCalls i t calls).map Prod.snd) (treeAfter t calls)
  | [], _, _, _ => rfl
  | call :: calls, i, t, h => by
    rw [loggedCalls]
    split
    · next hzero => exact ⟨hzero, applies_loggedCalls (i + 1) h.2⟩
    · next hfail =>
        have hrest := applies_loggedCalls (i + 1) h.2
        have hafter : treeAfter t (call :: calls) = treeAfter (call.onTree t).2 calls := rfl
        rw [hafter]
        rwa [h.1 hfail] at hrest ⊢

theorem loggedCalls_take : ∀ calls i n t count,
    (match ((loggedCalls i t calls).take n).getLast? with
      | none => count = 0
      | some p => i + count = p.1 + 1) →
    loggedCalls i t (calls.take count) = (loggedCalls i t calls).take n
  | [], i, n, t, count, _ => by simp [loggedCalls]
  | call :: calls, i, n, t, count, h => by
    cases hcut : (loggedCalls i t (call :: calls)).take n with
    | nil =>
      rw [hcut] at h
      obtain rfl : count = 0 := h
      rfl
    | cons p rest =>
      have hlast : ∃ q, ((loggedCalls i t (call :: calls)).take n).getLast? = some q ∧
          q ∈ loggedCalls i t (call :: calls) := by
        have hsub : ∀ q ∈ p :: rest, q ∈ loggedCalls i t (call :: calls) := by
          intro q hq
          rw [← hcut] at hq
          exact mem_of_mem_take hq
        rw [hcut]
        exact ⟨_, List.getLast?_eq_some_getLast (cons_ne_nil _ _),
          hsub _ (getLast_mem (cons_ne_nil p rest))⟩
      obtain ⟨q, hq, hmem⟩ := hlast
      rw [hq] at h
      have hle := (loggedCalls_lt hmem).1
      obtain ⟨count, rfl⟩ : ∃ k, count = k + 1 := ⟨count - 1, by dsimp only at h; omega⟩
      rw [← hcut, take_succ_cons, loggedCalls, loggedCalls]
      rw [loggedCalls] at hq
      split
      · next hzero =>
          rw [if_pos hzero] at hq
          cases n with
          | zero => cases hq
          | succ n =>
            rw [take_succ_cons] at hq ⊢
            congr 1
            refine loggedCalls_take calls (i + 1) n _ count ?_
            rw [List.getLast?_cons] at hq
            cases hrest : (loggedCalls (i + 1) (call.onTree t).2 calls |>.take n).getLast? with
            | none =>
              rw [hrest] at hq
              cases hq
              dsimp only [Option.getD_none] at h ⊢
              omega
            | some r =>
              rw [hrest] at hq
              cases hq
              dsimp only [Option.getD_some] at h ⊢
              omega
      · next hfail =>
          rw [if_neg hfail] at hq
          refine loggedCalls_take calls (i + 1) n _ count ?_
          rw [hq]
          dsimp only at h ⊢
          omega

/-! ## Replaying and cutting -/

def EntriesOf (es : List RouterLogEntry) (calls : List Request) : Prop :=
  es.map RouterLogEntry.content = calls.map Request.logEntry ∧ ∀ call ∈ calls, call.Short

theorem EntriesOf.decodes {calls} (h : EntriesOf es calls) (he : e ∈ es) :
    Decodes readLogEntry (putLogEntry e) e := by
  have hmem : e.content ∈ calls.map Request.logEntry := h.1 ▸ mem_map.2 ⟨e, he, rfl⟩
  obtain ⟨call, hcall, heq⟩ := mem_map.1 hmem
  exact decodes_logEntry (h.2 call hcall) heq.symm

theorem EntriesOf.take {calls} (h : EntriesOf es calls) (n : Nat) :
    EntriesOf (es.take n) (calls.take n) := by
  refine ⟨?_, fun call hcall => h.2 call (mem_of_mem_take hcall)⟩
  rw [map_take, map_take, h.1]

theorem length_le_log (es : List RouterLogEntry) (torn : Str) :
    es.length ≤ (es.flatMap putLogEntry ++ torn).length := by
  induction es with
  | nil => exact Nat.zero_le _
  | cons e es ih =>
    have := length_putLogEntry_pos e
    simp only [flatMap_cons, length_append, length_cons] at ih ⊢
    omega

/-- What a replay of whole entries does. -/
theorem replay_entries (htorn : ∃ err, readLogEntry torn = .error err) : ∀ {es calls t t' rounds}
      (next : UInt64), EntriesOf es calls → Applies t calls t' → es.length < rounds →
      ∃ next', replayLoop rounds t next (es.flatMap putLogEntry ++ torn) = (0, t', next')
  | [], calls, t, t', rounds + 1, next, hes, happlies, _ => by
    obtain rfl : calls = [] := map_eq_nil_iff.1 hes.1.symm
    obtain rfl : t' = t := happlies
    obtain ⟨err, herr⟩ := htorn
    refine ⟨next, ?_⟩
    rw [flatMap_nil, nil_append, replayLoop, herr]
  | e :: es, calls, t, t', rounds + 1, next, hes, happlies, hrounds => by
    obtain ⟨call, calls, rfl⟩ : ∃ call rest, calls = call :: rest := by
      cases calls with
      | nil => cases hes.1
      | cons call rest => exact ⟨call, rest, rfl⟩
    have hcontent := List.cons.inj hes.1
    have hdecodes := decodes_logEntry (hes.2 call mem_cons_self) hcontent.1
    have hrest : EntriesOf es calls :=
      ⟨hcontent.2, fun c hc => hes.2 c (mem_cons_of_mem _ hc)⟩
    rw [length_cons] at hrounds
    obtain ⟨next', hnext⟩ := replay_entries htorn
      (if e.sequenceId ≥ next then e.sequenceId + 1 else next) hrest happlies.2
      (Nat.lt_of_succ_lt_succ hrounds)
    refine ⟨next', ?_⟩
    rw [flatMap_cons, append_assoc, replayLoop, hdecodes]
    dsimp only
    rw [applyRedoLogEntry_eq hcontent.1, if_pos happlies.1]
    exact hnext

theorem readEntries_entries (htorn : ∃ err, readLogEntry torn = .error err) :
    ∀ {es : List RouterLogEntry} {rounds : Nat},
      (∀ e ∈ es, Decodes readLogEntry (putLogEntry e) e) → es.length < rounds →
      readEntries rounds (es.flatMap putLogEntry ++ torn) = (es, torn)
  | [], rounds + 1, _, _ => by
    obtain ⟨err, herr⟩ := htorn
    rw [flatMap_nil, nil_append, readEntries, herr]
  | e :: es, rounds + 1, hes, hrounds => by
    rw [flatMap_cons, append_assoc, readEntries, hes e mem_cons_self]
    dsimp only
    rw [readEntries_entries htorn (fun e he => hes e (mem_cons_of_mem _ he))
      (Nat.lt_of_succ_lt_succ hrounds)]

theorem le_of_mem_entryEnds : ∀ {es base n}, n ∈ entryEnds base es → base < n
  | e :: es, base, n, h => by
    have hpos := length_putLogEntry_pos e
    rcases mem_cons.1 h with rfl | h
    · omega
    · have := le_of_mem_entryEnds h
      omega

theorem length_entryEnds : ∀ es base, (entryEnds base es).length = es.length
  | [], _ => rfl
  | _ :: es, _ => congrArg (· + 1) (length_entryEnds es _)

theorem entryEnds_append : ∀ es es' base, entryEnds base (es ++ es') =
      entryEnds base es ++ entryEnds (base + (es.flatMap putLogEntry).length) es'
  | [], _, _ => rfl
  | e :: es, es', base => by
    rw [cons_append, entryEnds, entryEnds, entryEnds_append es es', flatMap_cons,
      length_append, Nat.add_assoc]
    rfl

/-- What a cut leaves of a log: some whole entries and a part that is none, and the entries are the
ones that end before the cut. -/
theorem take_log : ∀ {es : List RouterLogEntry} {torn : Str} cut base,
    (∀ e ∈ es, Decodes readLogEntry (putLogEntry e) e) → (∃ err, readLogEntry torn = .error err) →
    ∃ n torn', (es.flatMap putLogEntry ++ torn).take cut =
        (es.take n).flatMap putLogEntry ++ torn' ∧
      (∃ err, readLogEntry torn' = .error err) ∧
      ∀ owners : List Nat, (owners.zip (entryEnds base es)).filter (·.2 ≤ base + cut) =
        (owners.take n).zip (entryEnds base (es.take n))
  | [], torn, cut, base, _, htorn => by
    refine ⟨0, torn.take cut, rfl, ?_, fun owners => ?_⟩
    · rw [← take_append_drop cut torn] at htorn
      exact extends_readLogEntry.error_of_append htorn
    · simp [entryEnds]
  | e :: es, torn, cut, base, hes, htorn => by
    by_cases hcut : (putLogEntry e).length ≤ cut
    · obtain ⟨n, torn', htake, htorn', hfilter⟩ := take_log (cut - (putLogEntry e).length)
        (base + (putLogEntry e).length) (fun e he => hes e (mem_cons_of_mem _ he)) htorn
      refine ⟨n + 1, torn', ?_, htorn', fun owners => ?_⟩
      · rw [flatMap_cons, append_assoc, take_append, htake,
          take_of_length_le hcut, take_succ_cons, flatMap_cons, append_assoc]
      · cases owners with
        | nil => rfl
        | cons owner owners =>
          have hbase : base + (putLogEntry e).length + (cut - (putLogEntry e).length) =
              base + cut := by omega
          have hrest := hfilter owners
          rw [hbase] at hrest
          rw [entryEnds, zip_cons_cons, filter_cons_of_pos (by simpa using hcut), hrest]
          rfl
    · have hcut := Nat.not_le.1 hcut
      refine ⟨0, (putLogEntry e).take cut, ?_, ?_, fun owners => ?_⟩
      · rw [flatMap_cons, append_assoc, take_append_of_le_length (by omega)]
        rfl
      · exact (hes e mem_cons_self).error_of_cut extends_readLogEntry hcut
      · rw [filter_eq_nil_iff.2]
        · rfl
        · rintro ⟨owner, stop⟩ hmem
          have hstop := (of_mem_zip hmem).2
          have hlt : base + (putLogEntry e).length ≤ stop := by
            rcases mem_cons.1 hstop with rfl | hstop
            · exact Nat.le_refl _
            · exact Nat.le_of_lt (le_of_mem_entryEnds hstop)
          simp only [decide_eq_true_eq]
          omega

/-! ## Runs -/

theorem tidy_unsubscribeAll {tree : TopicTree} (htidy : tree.root.Tidy) (client : Str) :
    (tree.unsubscribeAll client).2.root.Tidy := by
  have hrounds : ∀ (filters : List Str) (count : Nat) {tree : TopicTree}, tree.root.Tidy →
      (filters.foldl (TopicTree.unsubscribeRound client) (count, tree)).2.root.Tidy := by
    intro filters
    induction filters with
    | nil => exact fun _ _ h => h
    | cons filter filters ih =>
      intro count tree h
      rw [foldl_cons, TopicTree.unsubscribeRound]
      cases hremove : tree.unsubscribe filter client with
      | error e => exact ih count h
      | ok tree' => exact ih (count + 1) (h.removeAt _ _ (TopicTree.unsubscribe_ok hremove))
  unfold TopicTree.unsubscribeAll
  split
  · exact htidy
  · exact hrounds _ 0 htidy

theorem tidy_onTree {t : PersistentTree} (htidy : t.tree.root.Tidy) (request : Request) :
    (request.onTree t).2.tree.root.Tidy := by
  cases request with
  | subscribe server client filter qos => exact tidy_subscribe htidy
  | unsubscribe server client filter => exact tidy_unsubscribe htidy
  | clientConnect server client => exact htidy
  | clientDisconnect server client =>
    have hall := tidy_unsubscribeAll htidy (makeFullClientId server client)
    simp only [Request.onTree, unsubscribeAll]
    split <;> exact hall

theorem tidy_treeAfter {t} (htidy : t.tree.root.Tidy) : (treeAfter t calls).tree.root.Tidy := by
  induction calls generalizing t with
  | nil => exact htidy
  | cons call calls ih => exact ih (tidy_onTree htidy call)

/-- The log has whole entries and a rest that is none. With the entries in memory they are those
of the logged calls, and what is remembered about them is right. -/
structure LogOf (x : Sys) (es : List RouterLogEntry) (torn : Str) (done : List Nat) : Prop where
  log : x.log = es.flatMap putLogEntry ++ torn
  torn : ∃ err, readLogEntry torn = .error err
  length : done.length = es.length
  flushed : x.flushed = done.zip (entryEnds 0 es)
  owners : done ++ x.owners = (loggedCalls 0 .new x.calls).map Prod.fst
  entries : EntriesOf (es ++ x.router.pending) ((loggedCalls 0 .new x.calls).map Prod.snd)

structure Recoverable (x : Sys) : Prop where
  tree : x.router.topicTree = treeAfter .new x.calls
  quiet : Quiet .new x.calls
  short : ∀ call ∈ x.calls, call.Short
  snapshot : new.loadFromSnapshot false x.snapshot = some (0, .new)
  log : ∃ es torn done, LogOf x es torn done

theorem Recoverable.tidy (h : Recoverable x) : x.router.topicTree.tree.root.Tidy := by
  rw [h.tree]
  exact tidy_treeAfter x.calls Node.tidy_empty

theorem LogOf.decodes (h : LogOf x es torn done) :
    ∀ e ∈ es, Decodes readLogEntry (putLogEntry e) e :=
  fun _ he => h.entries.decodes (mem_append_left _ he)

theorem LogOf.tornTail_eq (h : LogOf x es torn done) : tornTail x.log = torn := by
  rw [tornTail, h.log, readEntries_entries h.torn h.decodes]
  exact Nat.lt_succ_of_le (length_le_log es torn)

theorem LogOf.length_owners (h : LogOf x es torn done) :
    x.owners.length = x.router.pending.length := by
  have howners := congrArg List.length h.owners
  have hentries := congrArg List.length h.entries.1
  simp only [length_append, length_map] at howners hentries
  have := h.length
  omega

theorem treeAfter_append (call : Request) :
    treeAfter t (calls ++ [call]) = (call.onTree (treeAfter t calls)).2 := by
  rw [treeAfter, foldl_append]
  rfl

theorem handle_pending (r : RouterState) (now : UInt64) (request : Request) :
    (r.handle now request).2.pending = r.pending ++
      if (request.onTree r.topicTree).1 = 0 then
        [{ request.logEntry with sequenceId := r.nextSequenceId, timestampMs := now }]
      else [] := by
  unfold RouterState.handle
  dsimp only
  split
  · rfl
  · rw [append_nil]

theorem handle_ret (r : RouterState) (now : UInt64) (request : Request) :
    (r.handle now request).1 = 0 ↔ (request.onTree r.topicTree).1 = 0 := by
  unfold RouterState.handle
  dsimp only
  split
  · next h => simp [h]
  · exact Iff.rfl

theorem Recoverable.handle (h : Recoverable x) {now} (hsafe : (SysEvent.handle now request).Safe x)
    (hstep : x.step (.handle now request) = some x') : Recoverable x' := by
  obtain ⟨hshort, hnone⟩ := hsafe
  obtain ⟨es, torn, done, hlog⟩ := h.log
  obtain rfl : x' = { x with
      router := (x.router.handle now request).2
      calls := x.calls ++ [request]
      owners := if (x.router.handle now request).1 = 0 then x.owners ++ [x.calls.length]
        else x.owners } := (Option.some.inj hstep).symm
  have hquiet : (request.onTree (treeAfter .new x.calls)).1 ≠ 0 →
      (request.onTree (treeAfter .new x.calls)).2 = treeAfter .new x.calls := by
    rw [← h.tree]
    exact fun hfail => (onTree_same_or_zero request h.tidy hnone).resolve_right hfail
  have hcalls : ∀ call ∈ x.calls ++ [request], call.Short := by
    intro call hcall
    rcases mem_append.1 hcall with hcall | hcall
    · exact h.short call hcall
    · exact mem_singleton.1 hcall ▸ hshort
  refine ⟨?_, quiet_append h.quiet hquiet, hcalls, h.snapshot, es, torn, done, ?_⟩
  · dsimp only
    rw [handle_topicTree, treeAfter_append, h.tree]
  · refine ⟨hlog.log, hlog.torn, hlog.length, hlog.flushed, ?_, ?_, ?_⟩
    · dsimp only
      rw [loggedCalls_append, map_append, ← hlog.owners, ← h.tree, append_assoc, Nat.zero_add]
      congr 1
      by_cases hzero : (request.onTree x.router.topicTree).1 = 0
      · rw [if_pos ((handle_ret _ _ _).2 hzero), if_pos hzero]
        rfl
      · rw [if_neg fun hret => hzero ((handle_ret _ _ _).1 hret), if_neg hzero]
        simp
    · dsimp only
      rw [handle_pending, ← append_assoc, map_append, hlog.entries.1, loggedCalls_append,
        ← h.tree, map_append, map_append]
      congr 1
      split
      · cases request <;> rfl
      · rfl
    · intro call hcall
      obtain ⟨p, hp, rfl⟩ := mem_map.1 hcall
      exact hcalls p.2 (loggedCalls_lt hp).2.2

theorem Recoverable.flush (h : Recoverable x) (hsafe : SysEvent.flush.Safe x)
    (hstep : x.step .flush = some x') : Recoverable x' := by
  obtain ⟨es, torn, done, hlog⟩ := h.log
  cases hstep
  refine ⟨h.tree, h.quiet, h.short, h.snapshot, ?_⟩
  have howners := hlog.length_owners
  by_cases hpending : x.router.pending = []
  · -- there is nothing to write
    have hnone : x.owners = [] := eq_nil_of_length_eq_zero (by rw [howners, hpending]; rfl)
    refine ⟨es, torn, done, ?_, hlog.torn, hlog.length, ?_, ?_, ?_⟩ <;> dsimp only
    · rw [hpending, flatMap_nil, append_nil, hlog.log]
    · rw [hnone, zip_nil_left, append_nil, hlog.flushed]
    · rw [← hnone]
      exact hlog.owners
    · rw [← hpending]
      exact hlog.entries
  · have htorn : torn = [] := hlog.tornTail_eq ▸ hsafe hpending
    subst htorn
    refine ⟨es ++ x.router.pending, [], done ++ x.owners, ?_, hlog.torn, ?_, ?_, ?_, ?_⟩
    · dsimp only
      rw [hlog.log, append_nil, append_nil, flatMap_append]
    · rw [length_append, length_append, hlog.length, howners]
    · dsimp only
      rw [hlog.flushed, entryEnds_append, Nat.zero_add, hlog.log, append_nil, zip_append]
      rw [length_entryEnds, hlog.length]
    · dsimp only
      rw [append_nil]
      exact hlog.owners
    · dsimp only
      rw [append_nil]
      exact hlog.entries

/-- The start after a crash: what is in the two files makes the tree after the calls up to the last
one whose entry is complete. -/
theorem Recoverable.initialized (h : Recoverable x) (cut : Nat) : ∃ next es torn done,
      initializeRouter x.snapshot (x.log.take cut) = some (0,
        { topicTree := treeAfter .new (x.calls.take (callsUpTo (x.surviving cut))), pending := [],
          nextSequenceId := next }) ∧
      x.log.take cut = es.flatMap putLogEntry ++ torn ∧
      (∃ err, readLogEntry torn = .error err) ∧
      done.length = es.length ∧ x.surviving cut = done.zip (entryEnds 0 es) ∧
      done = (loggedCalls 0 .new (x.calls.take (callsUpTo (x.surviving cut)))).map Prod.fst ∧
      EntriesOf es
        ((loggedCalls 0 .new (x.calls.take (callsUpTo (x.surviving cut)))).map Prod.snd) := by
  obtain ⟨es, torn, done, hlog⟩ := h.log
  obtain ⟨n, torn', htake, htorn', hfilter⟩ := take_log cut 0 hlog.decodes hlog.torn
  rw [← hlog.log] at htake
  have hsurviving : x.surviving cut = (done.take n).zip (entryEnds 0 (es.take n)) := by
    rw [Sys.surviving, hlog.flushed]
    have := hfilter done
    rwa [Nat.zero_add] at this
  have hlength : (done.take n).length = (es.take n).length := by
    rw [length_take, length_take, hlog.length]
  -- the calls that are kept have the complete entries
  have hdone : done.take n =
      ((loggedCalls 0 .new x.calls).take (done.take n).length).map Prod.fst := by
    rw [map_take, ← hlog.owners, take_append_of_le_length (by rw [length_take]; omega),
      length_take, take_eq_take_iff]
    omega
  have hkept : loggedCalls 0 .new (x.calls.take (callsUpTo (x.surviving cut))) =
      (loggedCalls 0 .new x.calls).take (done.take n).length := by
    refine loggedCalls_take _ _ _ _ _ ?_
    have hlast : ((x.surviving cut).map Prod.fst).getLast? =
        (((loggedCalls 0 .new x.calls).take (done.take n).length).map Prod.fst).getLast? := by
      rw [← hdone, hsurviving, map_fst_zip]
      rw [length_entryEnds, hlength]
    rw [List.getLast?_map, List.getLast?_map] at hlast
    rw [callsUpTo]
    cases hleft : (x.surviving cut).getLast? with
    | none =>
      rw [hleft] at hlast
      cases hright : ((loggedCalls 0 .new x.calls).take (done.take n).length).getLast? with
      | none => rfl
      | some q =>
        rw [hright] at hlast
        cases hlast
    | some p =>
      rw [hleft] at hlast
      cases hright : ((loggedCalls 0 .new x.calls).take (done.take n).length).getLast? with
      | none =>
        rw [hright] at hlast
        cases hlast
      | some q =>
        rw [hright] at hlast
        have heq : p.1 = q.1 := Option.some.inj hlast
        dsimp only
        omega
  have hentries : EntriesOf (es.take n)
      ((loggedCalls 0 .new (x.calls.take (callsUpTo (x.surviving cut)))).map Prod.snd) := by
    have hes : (es ++ x.router.pending).take (done.take n).length = es.take n := by
      rw [hlength, take_append_of_le_length (by rw [length_take]; omega),
        length_take, take_eq_take_iff]
      omega
    have := hlog.entries.take (done.take n).length
    rwa [hes, ← map_take, ← hkept] at this
  have happlies := applies_loggedCalls 0 (quiet_take (callsUpTo (x.surviving cut)) h.quiet)
  obtain ⟨next, hreplay⟩ := replay_entries htorn' 1 hentries happlies
    (Nat.lt_succ_of_le (length_le_log (es.take n) torn'))
  refine ⟨next, es.take n, torn', done.take n, ?_, htake, htorn', hlength, hsurviving, ?_, hentries⟩
  · unfold initializeRouter loadAndReplay
    rw [h.snapshot]
    dsimp only
    rw [htake, hreplay]
    rfl
  · rw [hkept]
    exact hdone

theorem Recoverable.crash (h : Recoverable x) {cut} (hstep : x.step (.crash cut) = some x') :
    Recoverable x' := by
  obtain ⟨next, es, torn, done, hinit, hlog, htorn, hlength, hflushed, howners, hentries⟩ :=
    h.initialized cut
  have hquiet := quiet_take (callsUpTo (x.surviving cut)) h.quiet
  rw [Sys.step, hinit] at hstep
  cases hstep
  have hshort : ∀ call ∈ x.calls.take (callsUpTo (x.surviving cut)), call.Short :=
    fun call hcall => h.short call (mem_of_mem_take hcall)
  refine ⟨rfl, hquiet, hshort, h.snapshot, es, torn, done, hlog, htorn, hlength, hflushed, ?_, ?_⟩
  · dsimp only
    rw [append_nil]
    exact howners
  · dsimp only
    rw [append_nil]
    exact hentries

abbrev SafeRun : Sys → Prop := Runs.Reach Sys.step (fun x e => e.Safe x) fun x => x = .new

theorem recoverable_new : Recoverable .new where
  tree := rfl
  quiet := trivial
  short _ hcall := absurd hcall not_mem_nil
  snapshot := rfl
  log := ⟨[], [], [], rfl, ⟨_, rfl⟩, rfl, rfl, rfl, rfl, fun _ hcall => absurd hcall not_mem_nil⟩

theorem recoverable_of_safeRun (h : SafeRun x) : Recoverable x := by
  refine h.invariant (fun x hx => hx ▸ recoverable_new) fun x e x' hx hsafe hstep => ?_
  cases e with
  | handle now request => exact hx.handle hsafe hstep
  | flush => exact hx.flush hsafe hstep
  | save order =>
    obtain ⟨es, torn, done, hlog⟩ := hx.log
    cases hstep
    exact ⟨hx.tree, hx.quiet, hx.short, loadFromSnapshot_of_empty hsafe .new, es, torn, done,
      { hlog with }⟩
  | crash cut => exact hx.crash hstep

/-- In every run whose steps are safe, the router recovers from a crash at any byte of its log. -/
theorem router_recovers {x} (h : SafeRun x) (cut : Nat) : Recovers x cut := by
  obtain ⟨next, es, torn, done, hinit, -, -, -, hsurviving, howners, -⟩ :=
    (recoverable_of_safeRun h).initialized cut
  refine ⟨_, callsUpTo (x.surviving cut), hinit, fun p hp => ?_, fun _ _ _ => Iff.rfl⟩
  rw [hsurviving] at hp
  have hmem := (of_mem_zip hp).1
  rw [howners] at hmem
  obtain ⟨q, hq, heq⟩ := mem_map.1 hmem
  have hlt := (loggedCalls_lt hq).2.1
  rw [length_take] at hlt
  omega

/-! ## A torn tail and a snapshot -/

def Sys.runEvents (x : Sys) : List SysEvent → Option Sys
  | [] => some x
  | e :: es => (x.step e).bind (·.runEvents es)

def sampleHandled : Sys :=
  { Sys.new with router := sampleSubscribed, calls := [sampleSubscribe], owners := [0] }

def sampleSecond : Request := .subscribe [0x73] [0x64] [0x62] 1

/-- Two calls, with their entries in the log. -/
def sampleFlushed : Sys :=
  let router := (sampleSubscribed.handle 0 sampleSecond).2
  { router := { router with pending := [] }
    log := router.pending.flatMap putLogEntry
    snapshot := none
    calls := [sampleSubscribe, sampleSecond]
    owners := []
    flushed := [0, 1].zip (entryEnds 0 router.pending) }

/-- A crash in the middle of the second entry, and another one after the start: the first entry
survives both. -/
theorem router_recovers_sample : ∃ x, sampleFlushed.step (.crash 40) = some x ∧
    x.surviving 35 = [(0, 33)] ∧ SafeRun x ∧ Recovers sampleFlushed 40 ∧ Recovers x 35 := by
  have hhandled : SafeRun sampleHandled := by
    refine .step (e := .handle 0 sampleSubscribe) (.start rfl) ⟨?_, fun _ _ heq => ?_⟩ rfl
    · exact ⟨by decide, by decide, by decide⟩
    · cases heq
  have hboth : SafeRun { sampleHandled with
      router := (sampleSubscribed.handle 0 sampleSecond).2
      calls := [sampleSubscribe, sampleSecond]
      owners := [0, 1] } := by
    refine .step (e := .handle 0 sampleSecond) hhandled ⟨?_, fun _ _ heq => ?_⟩ rfl
    · exact ⟨by decide, by decide, by decide⟩
    · cases heq
  have hflushed : SafeRun sampleFlushed := .step (e := .flush) hboth (fun _ => rfl) rfl
  have hfirst : Recovers sampleFlushed 40 := router_recovers hflushed 40
  obtain ⟨router, -, hinit, -, -⟩ := id hfirst
  have hstep : sampleFlushed.step (.crash 40) = some { sampleFlushed with
      router
      log := sampleFlushed.log.take 40
      calls := sampleFlushed.calls.take (callsUpTo (sampleFlushed.surviving 40))
      owners := []
      flushed := sampleFlushed.surviving 40 } := by
    rw [Sys.step, hinit]
    rfl
  have hsurviving : (sampleFlushed.surviving 40).filter (·.2 ≤ 35) = [(0, 33)] := by
    decide +kernel
  have hcrashed : SafeRun _ := .step (e := .crash 40) hflushed trivial hstep
  exact ⟨_, hstep, hsurviving, hcrashed, hfirst, router_recovers hcrashed 35⟩

def sampleTorn : Sys :=
  let router := (RouterState.new.handle 0 sampleSecond).2
  let log := (sampleSubscribed.pending.flatMap putLogEntry).take 3
  { router := { router with pending := [] }
    log := log ++ router.pending.flatMap putLogEntry
    snapshot := none
    calls := [sampleSecond]
    owners := []
    flushed := [0].zip (entryEnds 3 router.pending) }

/-- Two runs after which the router does not recover, with nothing lost of its log: an entry behind
a torn tail is not found, and the start never returns when a snapshot has an entry. -/
theorem recovery_fails :
    (Sys.new.runEvents
        [.handle 0 sampleSubscribe, .flush, .crash 3, .handle 0 sampleSecond, .flush] =
          some sampleTorn ∧ ¬ Recovers sampleTorn sampleTorn.log.length) ∧
      Sys.new.runEvents [.handle 0 sampleSubscribe, .save ⟨id, fun _ => .refl _⟩] =
          some { sampleHandled with
            snapshot := some (sampleSubscribed.topicTree.saveToSnapshot ⟨id, fun _ => .refl _⟩) } ∧
        ¬ Recovers { sampleHandled with
          snapshot := some (sampleSubscribed.topicTree.saveToSnapshot
            ⟨id, fun _ => .refl _⟩) } 0 := by
  refine ⟨⟨?_, ?_⟩, rfl, ?_⟩
  · rfl
  · rintro ⟨router, count, hinit, hcount, hholds⟩
    have hstart : initializeRouter sampleTorn.snapshot (sampleTorn.log.take sampleTorn.log.length) =
        some (0, { topicTree := .new, pending := [], nextSequenceId := 1 }) := rfl
    rw [hstart] at hinit
    obtain rfl := (Prod.mk.inj (Option.some.inj hinit)).2
    have hsurviving : sampleTorn.surviving sampleTorn.log.length = [(0, 36)] := by decide +kernel
    have hpos := hcount (0, 36) (by rw [hsurviving]; exact mem_singleton.2 rfl)
    have hcalls : sampleTorn.calls.take count = [sampleSecond] :=
      take_of_length_le (Nat.succ_le_of_lt hpos)
    rw [hcalls] at hholds
    refine not_holds_new _ _ _ ((hholds [0x73, 0x40, 0x64] [[0x62]] 1).2 ?_)
    exact ⟨.ofOptions [0x73, 0x40, 0x64] { qos := 1 }, mem_cons_self, rfl, rfl⟩
  · rintro ⟨router, count, hinit, -⟩
    unfold initializeRouter at hinit
    rw [load_sampleSubscribed] at hinit
    cases hinit

end Mqtts.Router

import Mqtts.Authz.Policy
import Mathlib.Data.List.TakeWhile

/-!
# Revisions and grants

A broker that caches a grant with the revision `r` of its answer must learn when the grant ends
early. What the store knows of the records since `r` is kept by an `apply` that does not shorten the
lease of a record whose rules it leaves alone: such a change leaves no trace in the history.
-/

namespace Mqtts.Authz

open List Store Session RevisionChange

open Std (ExtTreeMap ExtTreeSet)

variable {env : Env} {s s' : Store} {request : ApplyRequest} {now : UInt64}

/-! ## What a plan records -/

structure Plan.Grows (p p' : Plan) : Prop where
  names : ∀ name ∈ p.invalidated, name ∈ p'.invalidated
  changed : (p.invalidated ≠ [] → p.changed) → p'.invalidated ≠ [] → p'.changed

theorem Plan.Grows.refl (p : Plan) : p.Grows p := ⟨fun _ h => h, id⟩

variable {p : Plan} {row a b : Session} {name r : Str} {t : UInt64} {x y : Sys} {e : Event}

theorem Plan.Grows.trans {q r} (hpq : p.Grows q) (hqr : q.Grows r) : p.Grows r :=
  ⟨fun name h => hqr.names name (hpq.names name h), fun h => hqr.changed (hpq.changed h)⟩

theorem planUpsert_spec {createOnly p'} (h : s.planUpsert env createOnly p row = .ok p') :
    p.Grows p' ∧ ∀ old, s.sessions[row.username]? = some old →
      sameRules old row ∨ row.username ∈ p'.invalidated := by
  unfold planUpsert at h
  split at h
  case h_1 hnone =>
    cases h
    exact ⟨⟨fun _ h => h, id⟩, fun old hold => by rw [hnone] at hold; cases hold⟩
  case h_2 old hold =>
    split at h
    · cases h
    cases h
    cases hsame : sameRules old row with
    | true =>
      refine ⟨⟨fun _ hmem => by simpa using hmem, fun hp hne => ?_⟩, fun old' hold' => .inl ?_⟩
      · simpa using hp (by simpa using hne)
      · rw [hold] at hold'
        cases hold'
        exact hsame
    | false =>
      refine ⟨⟨fun _ hmem => ?_, fun _ _ => by simp⟩, fun _ _ => .inr (by simp)⟩
      simpa using Or.inl hmem

theorem foldlM_planUpsert_spec {createOnly} : ∀ {rows : List Session} {p p'},
    rows.foldlM (s.planUpsert env createOnly) p = .ok p' →
      p.Grows p' ∧ ∀ row ∈ rows, ∀ old, s.sessions[row.username]? = some old →
        sameRules old row ∨ row.username ∈ p'.invalidated
  | [], p, p', h => by
    cases h
    exact ⟨.refl p, fun row hrow => absurd hrow not_mem_nil⟩
  | row :: rows, p, p', h => by
    obtain ⟨q, hq, hrest⟩ := Runs.exists_of_bind_ok h
    obtain ⟨hgrows, hrow⟩ := planUpsert_spec hq
    obtain ⟨hgrows', hrows⟩ := foldlM_planUpsert_spec hrest
    refine ⟨hgrows.trans hgrows', fun row' hmem old hold => ?_⟩
    rcases mem_cons.1 hmem with rfl | hmem
    · exact (hrow old hold).imp id (hgrows'.names _)
    · exact hrows row' hmem old hold

theorem planDelete_spec (env : Env) (s : Store) (now : UInt64) (p : Plan) (name : Str) :
    p.Grows (s.planDelete env now p name) ∧ ∀ old, s.sessions[name]? = some old →
      old.over now ∨ name ∈ (s.planDelete env now p name).invalidated := by
  unfold planDelete
  split
  case h_1 hnone =>
    exact ⟨.refl p, fun old hold => by rw [hnone] at hold; cases hold⟩
  case h_2 old hold =>
    cases hover : old.over now with
    | true =>
      refine ⟨⟨fun _ h => h, id⟩, fun old' hold' => .inl ?_⟩
      rw [hold] at hold'
      cases hold'
      exact hover
    | false => exact ⟨⟨fun _ h => mem_append_left _ h, fun _ _ => rfl⟩, fun _ _ => .inr (by simp)⟩

theorem foldl_planDelete_spec (env : Env) (s : Store) (now : UInt64) : ∀ (names : List Str) p,
    p.Grows (names.foldl (s.planDelete env now) p) ∧ ∀ name ∈ names, ∀ old,
      s.sessions[name]? = some old →
        old.over now ∨ name ∈ (names.foldl (s.planDelete env now) p).invalidated
  | [], p => ⟨.refl p, fun name hname => absurd hname not_mem_nil⟩
  | name :: names, p => by
    obtain ⟨hgrows, hname⟩ := planDelete_spec env s now p name
    obtain ⟨hgrows', hnames⟩ := foldl_planDelete_spec env s now names (s.planDelete env now p name)
    refine ⟨hgrows.trans hgrows', fun name' hmem old hold => ?_⟩
    rcases mem_cons.1 hmem with rfl | hmem
    · exact (hname old hold).imp id (hgrows'.names _)
    · exact hnames name' hmem old hold

structure PlanSpec (s : Store) (request : ApplyRequest) (now : UInt64) (p : Plan) : Prop where
  nodup : (request.upserts.map username ++ request.deletes).Nodup
  upserts : ∀ row ∈ request.upserts, ∀ old, s.sessions[row.username]? = some old →
    sameRules old row ∨ row.username ∈ p.invalidated
  deletes : ∀ name ∈ request.deletes, ∀ old, s.sessions[name]? = some old →
    old.over now ∨ name ∈ p.invalidated
  changed : p.invalidated ≠ [] → p.changed

/-- What an `apply` that goes through has checked and recorded. -/
theorem plan_spec (h : s.plan env request now = .ok p) : PlanSpec s request now p := by
  unfold plan at h
  dsimp only at h
  split at h
  · cases h
  split at h
  · cases h
  rename_i hchecks
  split at h
  · cases h
  obtain ⟨upserted, hupserted, hrest⟩ := Runs.exists_of_bind_ok h
  split at hrest
  · cases hrest
  cases hrest
  obtain ⟨hgrows, hupserts⟩ := foldlM_planUpsert_spec hupserted
  obtain ⟨hgrows', hdeletes⟩ :=
    foldl_planDelete_spec env s now request.deletes upserted
  refine ⟨?_, fun row hrow old hold => ?_, hdeletes, ?_⟩
  · by_contra hdup
    exact hchecks (by simp [hdup])
  · exact (hupserts row hrow old hold).imp id (hgrows'.names _)
  · exact hgrows'.changed (hgrows.changed fun hne => absurd rfl hne)

/-! ## What an apply publishes -/

theorem get_foldl_erase (name : Str) : ∀ (names : List Str) (rows : ExtTreeMap Str Session),
    (names.foldl (fun rows name => rows.erase name) rows)[name]? =
      if name ∈ names then none else rows[name]?
  | [], rows => by simp
  | first :: rest, rows => by
    rw [foldl_cons, get_foldl_erase name rest, Maps.get_erase]
    by_cases hfirst : first = name
    · simp [hfirst]
    · simp [hfirst, Ne.symm hfirst]

theorem get_foldl_insert_of_not_mem : ∀ {upserts : List Session}
    {rows : ExtTreeMap Str Session}, name ∉ upserts.map username →
      (upserts.foldl (fun rows row => rows.insert row.username row) rows)[name]? = rows[name]?
  | [], _, _ => rfl
  | row :: upserts, rows, h => by
    rw [map_cons, mem_cons, not_or] at h
    rw [foldl_cons, get_foldl_insert_of_not_mem h.2, Maps.get_insert, if_neg (Ne.symm h.1)]

theorem get_foldl_insert_of_mem : ∀ {upserts : List Session}
    {rows : ExtTreeMap Str Session}, (upserts.map username).Nodup → row ∈ upserts →
      (upserts.foldl (fun rows row => rows.insert row.username row) rows)[row.username]? = some row
  | first :: upserts, rows, hnodup, hmem => by
    rw [map_cons, nodup_cons] at hnodup
    rw [foldl_cons]
    rcases mem_cons.1 hmem with rfl | hmem
    · rw [get_foldl_insert_of_not_mem hnodup.1, Maps.get_insert, if_pos rfl]
    · exact get_foldl_insert_of_mem hnodup.2 hmem

theorem get_written (h : (request.upserts.map username ++ request.deletes).Nodup) (name : Str) :
    (name ∈ request.deletes ∧ (s.written request)[name]? = none) ∨
      (∃ row ∈ request.upserts, row.username = name ∧ (s.written request)[name]? = some row) ∨
      (s.written request)[name]? = s.sessions[name]? := by
  obtain ⟨hupserts, -, hdisjoint⟩ := nodup_append.1 h
  rw [written, get_foldl_erase]
  by_cases hdelete : name ∈ request.deletes
  · exact .inl ⟨hdelete, if_pos hdelete⟩
  rw [if_neg hdelete]
  by_cases hupsert : name ∈ request.upserts.map username
  · obtain ⟨row, hrow, rfl⟩ := mem_map.1 hupsert
    exact .inr (.inl ⟨row, hrow, rfl, get_foldl_insert_of_mem hupserts hrow⟩)
  · exact .inr (.inr (get_foldl_insert_of_not_mem hupsert))

theorem trimHistory_suffix : ∀ history names, (trimHistory history names).1 <:+ history
  | [], _ => suffix_rfl
  | change :: rest, names => by
    unfold trimHistory
    split
    · exact (trimHistory_suffix rest _).trans (suffix_cons change rest)
    · exact suffix_rfl

def entry (s : Store) (p : Plan) (revision : Str) : RevisionChange :=
  { fromRevision := s.revision, toRevision := revision, names := p.invalidated }

structure CommitSpec (env : Env) (s : Store) (request : ApplyRequest) (p : Plan) (s' : Store) :
    Prop where
  sessions : s'.sessions = s.written request
  draws : s.draws ≤ s'.draws
  unchanged : p.changed = false → s'.history = s.history ∧ s'.revision = s.revision
  changed : p.changed → ∃ k, s.draws ≤ k ∧ k < s'.draws ∧
    s'.revision = env.randomVersion k ∧ s'.history <:+ s.history ++ [entry s p s'.revision]

/-- What it publishes. -/
theorem commit_spec (p : Plan) : CommitSpec env s request p (s.commit env request p) := by
  unfold commit
  have hversion : ∀ t : Store, (t.drawVersion env p).sessions = t.sessions ∧
      t.draws ≤ (t.drawVersion env p).draws ∧ (t.drawVersion env p).history = t.history ∧
      (t.drawVersion env p).revision = t.revision := by
    intro t
    unfold drawVersion
    split
    · exact ⟨rfl, Nat.le_succ _, rfl, rfl⟩
    · exact ⟨rfl, Nat.le_refl _, rfl, rfl⟩
  obtain ⟨hsessions, hdraws, hhistory, hrevision⟩ :=
    hversion { s with sessions := s.written request, bytes := p.total }
  generalize drawVersion env { s with sessions := s.written request, bytes := p.total } p = t
    at hsessions hdraws hhistory hrevision
  unfold drawRevision
  cases hchanged : p.changed with
  | false =>
    refine ⟨hsessions, hdraws, fun _ => ⟨hhistory, hrevision⟩, fun h => ?_⟩
    rw [hchanged] at h
    cases h
  | true =>
    refine ⟨hsessions, Nat.le_succ_of_le hdraws, fun h => ?_, fun _ => ?_⟩
    · rw [hchanged] at h
      cases h
    refine ⟨t.draws, hdraws, Nat.lt_succ_self _, rfl, ?_⟩
    have hsuffix := trimHistory_suffix (t.history ++ [entry t p (env.randomVersion t.draws)])
      (t.historyNames + p.invalidated.length)
    simpa only [if_true, entry, hhistory, hrevision] using hsuffix

/-! ## The revisions that a store knows -/

def Store.revisions (s : Store) : List Str := s.history.map fromRevision ++ [s.revision]

structure Store.Numbered (env : Env) (s : Store) : Prop where
  drawn : ∀ r ∈ s.revisions, ∃ k < s.draws, r = env.randomVersion k
  nodup : s.revisions.Nodup

def Listed (s : Store) (r name : Str) : Prop :=
  ∃ before change later, s.history = before ++ change :: later ∧ change.fromRevision = r ∧
    ∃ c ∈ change :: later, name ∈ c.names

theorem eq_of_suffix_of_key {α β : Type} {f : α → β} {l xs ys a b}
    (h : (l.map f).Nodup) (ha : a :: xs <:+ l) (hb : b :: ys <:+ l) (hkey : f a = f b) :
    a :: xs = b :: ys := by
  -- the shorter one would be inside the longer one, which has the key once
  have hinside : ∀ {a b : α} {xs ys : List α}, b :: ys <:+ l → f a = f b → a :: xs <:+ b :: ys →
      a :: xs = b :: ys := by
    intro a b xs ys hb hkey hsuffix
    rcases suffix_cons_iff.1 hsuffix with heq | hrest
    · exact heq
    · have hnodup := h.sublist (hb.map f).sublist
      rw [map_cons, nodup_cons] at hnodup
      exact absurd (mem_map.2 ⟨a, hrest.subset mem_cons_self, hkey⟩) hnodup.1
  rcases suffix_or_suffix_of_suffix ha hb with hsuffix | hsuffix
  · exact hinside hb hkey hsuffix
  · exact (hinside ha hkey.symm hsuffix).symm

section

variable (hrandom : Function.Injective env.randomVersion) (h : CommitSpec env s request p s')
  (hchanged : p.changed) (hr : ∃ k < s.draws, r = env.randomVersion k)
include hrandom h hchanged hr

theorem CommitSpec.revision_ne : r ≠ s'.revision := by
  obtain ⟨k, hk, -, hrevision, -⟩ := h.changed hchanged
  obtain ⟨i, hi, rfl⟩ := hr
  rw [hrevision]
  intro heq
  have := hrandom heq
  omega

theorem CommitSpec.exists_entry (hknown : r ∈ s'.revisions) :
    ∃ before change later, s'.history = before ++ change :: later ∧ change.fromRevision = r ∧
      change :: later <:+ s.history ++ [entry s p s'.revision] := by
  rcases mem_append.1 hknown with hmem | hmem
  · obtain ⟨change, hchange, hfrom⟩ := mem_map.1 hmem
    obtain ⟨before, later, hsplit⟩ := append_of_mem hchange
    obtain ⟨-, -, -, -, hsuffix⟩ := h.changed hchanged
    exact ⟨before, change, later, hsplit, hfrom, List.IsSuffix.trans ⟨before, hsplit.symm⟩ hsuffix⟩
  · exact absurd (mem_singleton.1 hmem) (h.revision_ne hrandom hchanged hr)

theorem CommitSpec.listed_new (hknown : r ∈ s'.revisions) (hname : name ∈ p.invalidated) :
    Listed s' r name := by
  obtain ⟨before, change, later, hsplit, hfrom, hsuffix⟩ :=
    h.exists_entry hrandom hchanged hr hknown
  refine ⟨before, change, later, hsplit, hfrom, entry s p s'.revision, ?_, hname⟩
  have hlast := hsuffix.getLast (cons_ne_nil _ _)
  rw [getLast_append_singleton] at hlast
  exact hlast ▸ getLast_mem _

theorem CommitSpec.listed_old (hs : s.Numbered env) (hknown : r ∈ s'.revisions)
    (hlisted : Listed s r name) : Listed s' r name := by
  obtain ⟨before, change, later, hsplit, hfrom, hsuffix⟩ :=
    h.exists_entry hrandom hchanged hr hknown
  obtain ⟨before', change', later', hsplit', hfrom', c, hc, hname⟩ := hlisted
  have hsuffix' : change' :: (later' ++ [entry s p s'.revision]) <:+
      s.history ++ [entry s p s'.revision] := ⟨before', by rw [hsplit']; simp⟩
  have hkeys : ((s.history ++ [entry s p s'.revision]).map fromRevision).Nodup := by
    rw [map_append]
    exact hs.nodup
  have hsame := eq_of_suffix_of_key hkeys hsuffix hsuffix' (hfrom.trans hfrom'.symm)
  refine ⟨before, change, later, hsplit, hfrom, c, ?_, hname⟩
  rw [hsame, ← cons_append]
  exact mem_append_left _ hc

end

theorem CommitSpec.suffix (h : CommitSpec env s request p s') (hchanged : p.changed) :
    s'.history.map fromRevision <:+ s.revisions := by
  obtain ⟨-, -, -, -, hsuffix⟩ := h.changed hchanged
  have := hsuffix.map fromRevision
  rwa [map_append] at this

theorem Store.Numbered.commit (hrandom : Function.Injective env.randomVersion) (hs : s.Numbered env)
    (h : CommitSpec env s request p s') : s'.Numbered env := by
  cases hchanged : p.changed with
  | false =>
    obtain ⟨hhistory, hrevision⟩ := h.unchanged hchanged
    have hsame : s'.revisions = s.revisions := by rw [revisions, hhistory, hrevision]; rfl
    refine ⟨fun r hr => ?_, hsame ▸ hs.nodup⟩
    obtain ⟨k, hk, heq⟩ := hs.drawn r (hsame ▸ hr)
    exact ⟨k, Nat.lt_of_lt_of_le hk h.draws, heq⟩
  | true =>
    have hsuffix := h.suffix hchanged
    obtain ⟨k, hle, hlt, hrevision, -⟩ := h.changed hchanged
    constructor
    · intro r hr
      rcases mem_append.1 hr with hr | hr
      · obtain ⟨i, hi, heq⟩ := hs.drawn r (hsuffix.subset hr)
        exact ⟨i, by omega, heq⟩
      · exact ⟨k, hlt, (mem_singleton.1 hr).trans hrevision⟩
    · refine nodup_append.2 ⟨hs.nodup.sublist hsuffix.sublist, by simp, ?_⟩
      intro r hr r' hr'
      rw [mem_singleton.1 hr']
      exact h.revision_ne hrandom hchanged (hs.drawn r (hsuffix.subset hr))

/-! ## A record since a revision -/

def Keeps (row row' : Session) : Prop :=
  sameRules row row' ∧ row.policyValidUntilMs ≤ row'.policyValidUntilMs

/-- Of a record at the revision `r`: the store does not know `r` any more, or the history since `r`
names the record, or it is still there with the same rules and a lease that is not shorter, or its
session is over. -/
def Tracked (r name : Str) (row : Session) (clock : UInt64) (s : Store) : Prop :=
  r ∉ s.revisions ∨ Listed s r name ∨ (∃ row', s.sessions[name]? = some row' ∧ Keeps row row') ∨
    row.over clock

theorem sameRules_iff : sameRules a b ↔ { a with policyValidUntilMs := 0, sourceContext := [] } =
      ({ b with policyValidUntilMs := 0, sourceContext := [] } : Session) := decide_eq_true_iff

theorem Keeps.trans {c} (hab : Keeps a b) (hbc : Keeps b c) : Keeps a c :=
  ⟨sameRules_iff.2 ((sameRules_iff.1 hab.1).trans (sameRules_iff.1 hbc.1)),
    UInt64.le_trans hab.2 hbc.2⟩

theorem Keeps.over (h : Keeps a b) (now : UInt64) : b.over now = a.over now := by
  have hsame := congrArg Session.expiresAtMs (sameRules_iff.1 h.1)
  rw [Session.over, Session.over, hsame]

theorem over_mono {t'} (hle : t ≤ t') (h : row.over t) : row.over t' := by
  simp only [Session.over, Bool.and_eq_true, decide_eq_true_eq] at h ⊢
  exact ⟨h.1, UInt64.le_trans h.2 hle⟩

def LeaseKept (s : Store) (request : ApplyRequest) : Prop :=
  ∀ row ∈ request.upserts, ∀ old, s.sessions[row.username]? = some old →
    sameRules old row → old.policyValidUntilMs ≤ row.policyValidUntilMs

theorem CommitSpec.record (h : CommitSpec env s request p s') (hplan : PlanSpec s request now p)
    (hlease : LeaseKept s request) {row} (hrow : s.sessions[name]? = some row) :
    (∃ row', s'.sessions[name]? = some row' ∧ Keeps row row') ∨ row.over now ∨
      name ∈ p.invalidated := by
  rw [h.sessions]
  rcases get_written (s := s) hplan.nodup name with ⟨hdelete, -⟩ | ⟨row', hmem, rfl, hget⟩ | hget
  · exact .inr (hplan.deletes name hdelete row hrow)
  · rcases hplan.upserts row' hmem row hrow with hsame | hlisted
    · exact .inl ⟨row', hget, hsame, hlease row' hmem row hrow hsame⟩
    · exact .inr (.inr hlisted)
  · exact .inl ⟨row, hget.trans hrow, sameRules_iff.2 rfl, UInt64.le_refl _⟩

/-- One `apply` keeps what is known of a record. -/
theorem Tracked.commit (hrandom : Function.Injective env.randomVersion) (hs : s.Numbered env)
    (h : CommitSpec env s request p s') (hplan : PlanSpec s request now p)
    (hlease : LeaseKept s request) {row clock} (hnow : now ≤ clock)
    (hr : ∃ k < s.draws, r = env.randomVersion k) (htracked : Tracked r name row clock s) :
    Tracked r name row clock s' := by
  by_cases hknown : r ∈ s'.revisions
  case neg => exact .inl hknown
  rcases htracked with hlost | hlisted | ⟨row', hget, hkeeps⟩ | hover
  · cases hchanged : p.changed with
    | false =>
      obtain ⟨hhistory, hrevision⟩ := h.unchanged hchanged
      exact .inl (by rwa [revisions, hhistory, hrevision])
    | true =>
      rcases mem_append.1 hknown with hmem | hmem
      · exact absurd ((h.suffix hchanged).subset hmem) hlost
      · exact absurd (mem_singleton.1 hmem) (h.revision_ne hrandom hchanged hr)
  · cases hchanged : p.changed with
    | false => exact .inr (.inl (by rwa [Listed, (h.unchanged hchanged).1]))
    | true => exact .inr (.inl (h.listed_old hrandom hchanged hr hs hknown hlisted))
  · rcases h.record hplan hlease hget with ⟨row'', hget', hkeeps'⟩ | hover | hname
    · exact .inr (.inr (.inl ⟨row'', hget', hkeeps.trans hkeeps'⟩))
    · exact .inr (.inr (.inr (over_mono hnow (hkeeps.over now ▸ hover))))
    · have hchanged := hplan.changed (ne_nil_of_mem hname)
      exact .inr (.inl (h.listed_new hrandom hchanged hr hknown hname))
  · exact .inr (.inr (.inr hover))

/-! ## What the broker reads -/

theorem mem_collectNames : ∀ {list names names'},
    collectNames names list = some names' → ∀ name, name ∈ names ∨ name ∈ list → name ∈ names'
  | [], names, names', h, name, hname => by
    cases h
    exact hname.resolve_right not_mem_nil
  | first :: rest, names, names', h, name, hname => by
    unfold collectNames at h
    dsimp only at h
    split_ifs at h
    refine mem_collectNames h name ?_
    rcases hname with hname | hname
    · exact .inl (ExtTreeSet.mem_insert.2 (.inr hname))
    · rcases mem_cons.1 hname with rfl | hname
      · exact .inl ExtTreeSet.mem_insert_self
      · exact .inr hname

theorem revisionReply_of_unknown (h : r ∉ s.revisions) : (s.revisionReply r).isDelta = false := by
  rw [revisions, mem_append, not_or] at h
  have hnone : s.history.dropWhile (fun change => change.fromRevision ≠ r) = [] := by
    rw [dropWhile_eq_nil_iff]
    exact fun change hchange =>
      decide_eq_true fun heq => h.1 (mem_map.2 ⟨change, hchange, heq⟩)
  unfold revisionReply
  rw [if_neg fun heq => h.2 (mem_singleton.2 heq), hnone]

theorem revisionReply_of_listed (hs : s.Numbered env) (h : Listed s r name) :
    (s.revisionReply r).isDelta = false ∨ name ∈ (s.revisionReply r).invalidatedUsernames := by
  obtain ⟨before, change, later, hsplit, hfrom, c, hc, hname⟩ := h
  have hnodup := hs.nodup
  rw [revisions, hsplit, map_append, map_cons, hfrom, append_assoc] at hnodup
  obtain ⟨-, hlater, hbefore⟩ := nodup_append.1 hnodup
  have hold : r ≠ s.revision := fun heq =>
    (nodup_cons.1 hlater).1 (mem_append_right _ (mem_singleton.2 heq))
  -- no earlier entry starts from the revision
  have hdrop : s.history.dropWhile (fun change => change.fromRevision ≠ r) = change :: later := by
    rw [hsplit, dropWhile_append_of_pos, dropWhile_cons_of_neg (by simp [hfrom])]
    intro c hc
    exact decide_eq_true (hbefore _ (mem_map.2 ⟨c, hc, rfl⟩) r mem_cons_self)
  unfold revisionReply
  rw [if_neg hold, hdrop]
  dsimp only
  cases hcollect : collectNames ∅ ((change :: later).flatMap names) with
  | none => exact .inl rfl
  | some names =>
    refine .inr (ExtTreeSet.mem_toList.2 (mem_collectNames hcollect name (.inr ?_)))
    exact mem_flatMap.2 ⟨c, hc, hname⟩

theorem authorize_of_keeps {row' request}
    (h : authorize env row request now) (hkeeps : Keeps row row') (ht : t < row.expiry) :
    authorize env row' request t := by
  have hsame := sameRules_iff.1 hkeeps.1
  obtain ⟨-, hclient, -, hexpires, -, henabled, hpermissions, -, -⟩ := mk.inj hsame
  unfold authorize at h ⊢
  split at h
  · cases h
  rename_i hsession
  have hlive : row.expiresAtMs ≠ 0 → ¬ row.expiresAtMs ≤ t := by
    intro hne hle
    rw [expiry] at ht
    split at ht
    · exact UInt64.not_le.2 ht hle
    · case isFalse hlong =>
        have hle' := UInt64.not_lt.1 fun hlt => hlong ⟨hne, hlt⟩
        exact UInt64.not_le.2 ht (UInt64.le_trans hle' hle)
  have hlease : ¬ row'.policyValidUntilMs ≤ t := by
    intro hle
    rw [expiry] at ht
    split at ht
    · case isTrue hshort =>
        have := UInt64.lt_trans ht hshort.2
        exact UInt64.not_le.2 this (UInt64.le_trans hkeeps.2 hle)
    · exact UInt64.not_le.2 ht (UInt64.le_trans hkeeps.2 hle)
  rw [if_neg]
  · rwa [← hpermissions]
  · simp only [Bool.or_eq_true, Bool.not_eq_true', decide_eq_true_eq, Bool.and_eq_true, not_or,
      not_and, Bool.not_eq_false] at hsession ⊢
    obtain ⟨⟨⟨henabled', hclient'⟩, -⟩, -⟩ := hsession
    refine ⟨⟨⟨henabled ▸ henabled', hclient ▸ hclient'⟩, hlease⟩, fun hne => ?_⟩
    rw [← hexpires] at hne ⊢
    exact hlive hne

theorem Tracked.coherent {clock} (hs : s.Numbered env) (h : Tracked r name row clock s)
    {request} (hallowed : authorize env row request now)
    (hclock : clock ≤ t) (ht : t < row.expiry) :
    (∃ row', s.sessions[name]? = some row' ∧ authorize env row' request t) ∨
      (s.revisionReply r).isDelta = false ∨ name ∈ (s.revisionReply r).invalidatedUsernames := by
  rcases h with hlost | hlisted | ⟨row', hget, hkeeps⟩ | hover
  · exact .inr (.inl (revisionReply_of_unknown hlost))
  · exact .inr (revisionReply_of_listed hs hlisted)
  · exact .inl ⟨row', hget, authorize_of_keeps hallowed hkeeps ht⟩
  · -- a session that is over has no time left
    exfalso
    have hover := over_mono hclock hover
    simp only [Session.over, Bool.and_eq_true, decide_eq_true_eq] at hover
    rw [expiry] at ht
    split at ht
    · exact UInt64.not_le.2 ht hover.2
    · case isFalse hlong =>
        have hle := UInt64.not_lt.1 fun hlt => hlong ⟨hover.1, hlt⟩
        exact UInt64.not_le.2 ht (UInt64.le_trans hle hover.2)

/-! ## Runs -/

/-- The condition on a step: an `Apply` that changes the store does not shorten the lease of a
record whose rules it leaves alone. -/
def LeasesKept (env : Env) (x : Sys) : Event → Prop
  | .apply request now durable =>
    (x.store.apply env request now durable).2 ≠ x.store → LeaseKept x.store request
  | _ => True

abbrev Sys.Reachable (env : Env) : Sys → Prop :=
  Runs.Reach (Sys.step env) (fun _ _ => True) (Sys.Opened env)

abbrev Sys.Follows (env : Env) (x : Sys) : Sys → Prop :=
  Runs.Reach (Sys.step env) (LeasesKept env) fun y => y = x

theorem apply_eq_or_commit (env : Env) (s : Store) (request : ApplyRequest) (now : UInt64)
    (durable : Bool) : (s.apply env request now durable).2 = s ∨
      ∃ p, s.plan env request now = .ok p ∧
        (s.apply env request now durable).2 = s.commit env request p := by
  unfold apply
  cases hplan : s.plan env request now with
  | error e => exact .inl rfl
  | ok p =>
    cases durable with
    | false => exact .inl rfl
    | true => exact .inr ⟨p, rfl, rfl⟩

theorem apply_cases (env : Env) (s : Store) (request : ApplyRequest) (now : UInt64)
    (durable : Bool) : (s.apply env request now durable).2 = s ∨ ∃ p, PlanSpec s request now p ∧
      CommitSpec env s request p (s.apply env request now durable).2 := by
  refine (apply_eq_or_commit env s request now durable).imp id ?_
  rintro ⟨p, hplan, heq⟩
  rw [heq]
  exact ⟨p, plan_spec hplan, commit_spec p⟩

theorem step_cases (h : x.step env e = some y) :
    x.clock ≤ y.clock ∧ (y.store = x.store ∨ ∃ request now p, now ≤ x.clock ∧
      PlanSpec x.store request now p ∧ CommitSpec env x.store request p y.store ∧
      (LeasesKept env x e → LeaseKept x.store request)) := by
  cases e <;> simp only [Sys.step] at h
  case apply request start durable =>
    split at h
    case isFalse => cases h
    case isTrue hstart =>
      cases h
      refine ⟨UInt64.le_refl _, or_iff_not_imp_left.2 fun hchanged => ?_⟩
      obtain ⟨p, hplan, hcommit⟩ :=
        (apply_cases env x.store request start durable).resolve_left hchanged
      exact ⟨request, start, p, hstart, hplan, hcommit, fun hkept => hkept hchanged⟩
  case scan names =>
    split at h <;> cases h
    exact ⟨UInt64.le_refl _, .inl rfl⟩
  case expire version names start durable =>
    split at h
    case isFalse => cases h
    case isTrue hstart =>
      cases h
      refine ⟨UInt64.le_refl _, (apply_cases env x.store _ start durable).imp id ?_⟩
      rintro ⟨p, hplan, hcommit⟩
      exact ⟨_, start, p, hstart.1, hplan, hcommit, fun _ row hrow => absurd hrow not_mem_nil⟩
  case tick now =>
    split at h
    case isFalse => cases h
    case isTrue hnow =>
      cases h
      exact ⟨hnow, .inl rfl⟩

theorem loadRows_history {now} : ∀ {rows s s'}, loadRows env now s rows = .ok s' →
      s'.history = s.history ∧ s'.revision = s.revision ∧ s'.draws = s.draws
  | [], s, s', h => by
    cases h
    exact ⟨rfl, rfl, rfl⟩
  | (key, session) :: rest, s, s', h => by
    unfold loadRows at h
    split at h
    · cases h
    split at h
    · exact loadRows_history h
    dsimp only at h
    split at h
    · cases h
    · exact (loadRows_history h :)

theorem numbered_opened (h : x.Opened env) : x.store.Numbered env := by
  obtain ⟨maxSessions, maxBytes, draws, rows, hopen, -⟩ := h
  unfold openStore at hopen
  split_ifs at hopen
  obtain ⟨hhistory, hrevision, hdraws⟩ := loadRows_history hopen
  dsimp only at hhistory hrevision hdraws
  constructor
  · intro r hr
    rw [revisions, hhistory, hrevision] at hr
    refine ⟨draws + 1, by omega, ?_⟩
    simpa using hr
  · rw [revisions, hhistory, hrevision]
    simp

theorem numbered_step (hrandom : Function.Injective env.randomVersion) (hx : x.store.Numbered env)
    (h : x.step env e = some y) : y.store.Numbered env := by
  obtain ⟨-, hsame | ⟨request, now, p, -, -, hcommit, -⟩⟩ := step_cases h
  · rwa [hsame]
  · exact hx.commit hrandom hcommit

theorem numbered_reachable (hrandom : Function.Injective env.randomVersion) (h : x.Reachable env) :
    x.store.Numbered env :=
  h.invariant (fun _ hopened => numbered_opened hopened)
    (fun _ _ _ hx _ hstep => numbered_step hrandom hx hstep)

structure Watched (env : Env) (r name : Str) (row : Session) (x : Sys) : Prop where
  numbered : x.store.Numbered env
  drawn : ∃ k < x.store.draws, r = env.randomVersion k
  tracked : Tracked r name row x.clock x.store

theorem Watched.step (hrandom : Function.Injective env.randomVersion)
    (hx : Watched env r name row x) (hlease : LeasesKept env x e) (h : x.step env e = some y) :
    Watched env r name row y := by
  have hnumbered := numbered_step hrandom hx.numbered h
  obtain ⟨hclock, hstore⟩ := step_cases h
  have htick : Tracked r name row y.clock x.store :=
    hx.tracked.imp id (Or.imp id (Or.imp id (over_mono hclock)))
  rcases hstore with hsame | ⟨request, now, p, hnow, hplan, hcommit, hkept⟩
  · exact ⟨hnumbered, hsame ▸ hx.drawn, hsame ▸ htick⟩
  obtain ⟨k, hk, hr⟩ := hx.drawn
  refine ⟨hnumbered, ⟨k, Nat.lt_of_lt_of_le hk hcommit.draws, hr⟩, ?_⟩
  exact htick.commit hrandom hx.numbered hcommit hplan (hkept hlease)
    (UInt64.le_trans hnow hclock) hx.drawn

theorem watched_follows (hrandom : Function.Injective env.randomVersion) (hx : x.Reachable env)
    (hrow : x.store.sessions[name]? = some row) (h : x.Follows env y) :
    Watched env x.store.revision name row y := by
  refine h.invariant (fun z hz => ?_) fun _ _ _ hx hlease hstep => hx.step hrandom hlease hstep
  subst hz
  have hnumbered := numbered_reachable hrandom hx
  refine ⟨hnumbered, hnumbered.drawn _ (mem_append_right _ (mem_singleton.2 rfl)), ?_⟩
  exact .inr (.inr (.inl ⟨row, hrow, sameRules_iff.2 rfl, UInt64.le_refl _⟩))

/-- A grant that `BatchAuthorize` has given holds until its expiry, or the broker learns from the
revision of the answer that it may not, in every run that keeps the leases. -/
theorem grants_coherent (env : Env) (hrandom : Function.Injective env.randomVersion) {x y : Sys}
    (hx : x.Reachable env) (cacheTtl : UInt32) (now : UInt64) (requests : List AuthorizeRequest)
    {results} (hresults : batchAuthorize env cacheTtl x.store requests now = some results)
    {request result}
    (hresult : (request, result) ∈ requests.zip results) (hallow : result.2.outcome = .allow)
    (hrun : x.Follows env y) {t} (hclock : y.clock ≤ t) (ht : t < result.2.expiresAtMs) :
    (∃ row, y.store.sessions[request.username]? = some row ∧ authorize env row request t) ∨
      (y.store.revisionReply result.2.cacheRevision).isDelta = false ∨
      request.username ∈ (y.store.revisionReply result.2.cacheRevision).invalidatedUsernames := by
  have hanswer : result = answer env cacheTtl x.store now request := by
    unfold batchAuthorize at hresults
    split at hresults
    · cases hresults
    split_ifs at hresults
    cases hresults
    obtain ⟨i, hi⟩ := mem_iff_getElem?.1 hresult
    rw [List.getElem?_zip_eq_some, List.getElem?_map] at hi
    obtain ⟨hrequest, hresult⟩ := hi
    rw [hrequest] at hresult
    exact (Option.some.inj hresult).symm
  subst hanswer
  cases hrow : x.store.sessions[request.username]? with
  | none => simp [answer, decision, hrow] at hallow
  | some row =>
    have hallowed : authorize env row request now := by simpa [answer, decision, hrow] using hallow
    have hexpiry : t < row.expiry := by simpa [answer, decision, hrow] using ht
    obtain ⟨hnumbered, -, htracked⟩ := watched_follows hrandom hx hrow hrun
    exact htracked.coherent hnumbered hallowed hclock hexpiry

/-! ## Leases that get longer and shorter -/

def sampleEnv : Env where
  tokens _ := ([], true)
  toLower := id
  size _ := 1
  randomVersion k := List.replicate (k + 1) 0x61

theorem sampleEnv_injective : Function.Injective sampleEnv.randomVersion := by
  intro k k' h
  simpa [sampleEnv] using congrArg List.length h

variable (validUntil : UInt64)

def sampleSession : Session where
  username := [0x75]
  clientId := [0x63]
  passwordSha256 := List.replicate 32 0
  expiresAtMs := 0
  policyValidUntilMs := validUntil
  enabled := true
  permissions := [{ action := .publish, topicFilter := [0x61], payloadPolicy := none }]
  nspace := [0x6e]
  sourceContext := []

def sampleRequest : AuthorizeRequest where
  requestId := 1
  username := [0x75]
  clientId := [0x63]
  action := .publish
  topic := [0x61]
  payload := []
  hasPayload := true

def sampleOpened : Sys where
  store :=
    { sessions := (∅ : ExtTreeMap Str Session).insert [0x75] (sampleSession 2000)
      version := [0x61], revision := [0x61, 0x61], bytes := 1, maxSessions := 1
      maxBytes := maxSessionBytes, history := [], historyNames := 0, draws := 2 }
  clock := 0
  expiring := []

theorem sampleOpened_opened : sampleOpened.Opened sampleEnv :=
  ⟨1, maxSessionBytes, 0, [([0x75], sampleSession 2000)], by rfl, rfl⟩

def sampleRenewal : ApplyRequest where
  expectedVersion := [0x61]
  upserts := [sampleSession validUntil]
  deletes := []
  createOnly := false

def sampleRenewed : Sys :=
  { sampleOpened with
    store := (sampleOpened.store.apply sampleEnv (sampleRenewal validUntil) 0 true).2 }

theorem sampleRenewed_step :
    sampleOpened.step sampleEnv (.apply (sampleRenewal validUntil) 0 true) =
      some (sampleRenewed validUntil) := rfl

/-- A longer lease: the grant of before still holds at its last millisecond. -/
theorem grants_coherent_sample : sampleOpened.Follows sampleEnv (sampleRenewed 3000) ∧
      ((∃ row, (sampleRenewed 3000).store.sessions[sampleRequest.username]? = some row ∧
          authorize sampleEnv row sampleRequest 1999) ∨
        ((sampleRenewed 3000).store.revisionReply [0x61, 0x61]).isDelta = false ∨
        sampleRequest.username ∈
          ((sampleRenewed 3000).store.revisionReply [0x61, 0x61]).invalidatedUsernames) := by
  have hkept : LeasesKept sampleEnv sampleOpened (.apply (sampleRenewal 3000) 0 true) := by
    intro _ row hrow old hold _
    obtain rfl := mem_singleton.1 hrow
    have hold' : some (sampleSession 2000) = some old := by
      rw [← hold]
      decide +kernel
    cases hold'
    decide
  have hfollows : sampleOpened.Follows sampleEnv (sampleRenewed 3000) :=
    .step (.start rfl) hkept (sampleRenewed_step 3000)
  have hanswer : batchAuthorize sampleEnv 1000 sampleOpened.store [sampleRequest] 0 =
      some [(1, decision 1000 true 2000 [0x61, 0x61])] := by decide +kernel
  have hmem : (sampleRequest, 1, decision 1000 true 2000 [0x61, 0x61]) ∈
      [sampleRequest].zip [((1 : UInt64), decision 1000 true 2000 [0x61, 0x61])] :=
    mem_singleton.2 rfl
  exact ⟨hfollows, grants_coherent sampleEnv sampleEnv_injective (.start sampleOpened_opened) 1000 0
    [sampleRequest] hanswer hmem rfl hfollows (t := 1999) (by decide) (by decide)⟩

/-- A shorter lease: the grant has ended before its expiry, and the revision that the broker knows
is still the current one. -/
theorem shortened_lease_unseen : sampleOpened.Reachable sampleEnv ∧
      batchAuthorize sampleEnv 1000 sampleOpened.store [sampleRequest] 0 =
        some [(1, decision 1000 true 2000 [0x61, 0x61])] ∧
      Runs.Reach (Sys.step sampleEnv) (fun _ _ => True) (fun x => x = sampleOpened)
        { sampleRenewed 1000 with clock := 1500 } ∧
      ¬ ((∃ row, (sampleRenewed 1000).store.sessions[sampleRequest.username]? = some row ∧
          authorize sampleEnv row sampleRequest 1500) ∨
        ((sampleRenewed 1000).store.revisionReply [0x61, 0x61]).isDelta = false ∨
        sampleRequest.username ∈
          ((sampleRenewed 1000).store.revisionReply [0x61, 0x61]).invalidatedUsernames) := by
  refine ⟨.start sampleOpened_opened, by decide +kernel, ?_, ?_⟩
  · exact .step (.step (.start rfl) trivial (sampleRenewed_step 1000)) trivial (e := .tick 1500) rfl
  · rintro (⟨row, hrow, hallowed⟩ | hrest)
    · have hrow' : some (sampleSession 1000) = some row := by
        rw [← hrow]
        decide +kernel
      cases hrow'
      revert hallowed
      decide +kernel
    · revert hrest
      decide +kernel

end Mqtts.Authz

import Mqtts.Authz.Listing

/-!
# The accounts of the authorization store

The store keeps the encoded size of its records in `bytes` and refuses what would go beyond its
limits. It never adds the records up again: `Apply` goes from the old total to the new one by the
sizes of what it replaces, adds and deletes, all read from the records before the write.
-/

namespace Mqtts.Authz

open List Std Session Store Maps

variable {env : Env} {s : Store} {request : ApplyRequest} {now : UInt64} {p p' : Plan}

/-- What the accounts of a store should say of its records. -/
structure Store.Accounted (env : Env) (s : Store) : Prop where
  named : s.Named env
  bytes_eq : s.bytes = mapSum (fun _ row => env.size row) s.sessions
  count_le : s.sessions.size ≤ s.maxSessions
  bytes_le : s.bytes ≤ s.maxBytes

/-! ## The sums of a plan -/

/-- The plan has counted the records `rows` and added up their sizes. -/
structure Plan.Sums (env : Env) (rows : ExtTreeMap Str Session) (p : Plan) : Prop where
  count : p.count = mapSum (fun _ _ => 1) rows
  total : p.total = mapSum (fun _ row => env.size row) rows

variable {rows : ExtTreeMap Str Session}

theorem planUpsert_sums {createOnly row} (h : s.planUpsert env createOnly p row = .ok p')
    (hsame : rows[row.username]? = s.sessions[row.username]?) (hp : p.Sums env rows) :
    p'.Sums env (rows.insert row.username row) := by
  have hcount := mapSum_insert (fun _ _ => 1) rows row.username row
  have htotal := mapSum_insert (fun _ row => env.size row) rows row.username row
  rw [hsame] at hcount htotal
  obtain ⟨hpcount, hptotal⟩ := hp
  unfold planUpsert at h
  cases hold : s.sessions[row.username]? with
  | none =>
    simp only [hold] at h hcount htotal
    cases h
    simp only [Option.elim_none] at hcount htotal
    exact ⟨by dsimp only; omega, by dsimp only; omega⟩
  | some old =>
    simp only [hold] at h hcount htotal
    split at h
    · cases h
    cases h
    simp only [Option.elim_some] at hcount htotal
    exact ⟨by dsimp only; omega, by dsimp only; omega⟩

/-- The rows of a request have distinct names, so each finds the records as they were before. -/
theorem foldlM_planUpsert_sums {createOnly} : ∀ {upserts : List Session} {rows p},
    (upserts.map username).Nodup →
    (∀ name ∈ upserts.map username, rows[name]? = s.sessions[name]?) → p.Sums env rows →
    upserts.foldlM (s.planUpsert env createOnly) p = .ok p' →
      p'.Sums env (upserts.foldl (fun rows row => rows.insert row.username row) rows)
  | [], rows, p, _, _, hp, h => by
    cases h
    exact hp
  | row :: upserts, rows, p, hnodup, hsame, hp, h => by
    rw [map_cons, nodup_cons] at hnodup
    rw [map_cons, forall_mem_cons] at hsame
    obtain ⟨q, hq, hrest⟩ := Runs.exists_of_bind_ok h
    rw [foldl_cons]
    refine foldlM_planUpsert_sums hnodup.2 (fun name hname => ?_)
      (planUpsert_sums hq hsame.1 hp) hrest
    have hne : row.username ≠ name := fun heq => hnodup.1 (heq ▸ hname)
    rw [get_insert, if_neg hne]
    exact hsame.2 name hname

theorem planDelete_sums {name} (hsame : rows[name]? = s.sessions[name]?) (hp : p.Sums env rows) :
    (s.planDelete env now p name).Sums env (rows.erase name) := by
  have hcount := mapSum_erase (fun _ _ => 1) rows name
  have htotal := mapSum_erase (fun _ row => env.size row) rows name
  rw [hsame] at hcount htotal
  obtain ⟨hpcount, hptotal⟩ := hp
  unfold planDelete
  cases hold : s.sessions[name]? with
  | none =>
    simp only [hold, Option.elim_none] at hcount htotal
    exact ⟨by dsimp only; omega, by dsimp only; omega⟩
  | some old =>
    simp only [hold, Option.elim_some] at hcount htotal
    dsimp only
    split <;> exact ⟨by dsimp only; omega, by dsimp only; omega⟩

theorem foldl_planDelete_sums : ∀ {names : List Str} {rows p}, names.Nodup →
    (∀ name ∈ names, rows[name]? = s.sessions[name]?) → p.Sums env rows →
      (names.foldl (s.planDelete env now) p).Sums env
        (names.foldl (fun rows name => rows.erase name) rows)
  | [], _, _, _, _, hp => hp
  | name :: names, rows, p, hnodup, hsame, hp => by
    rw [nodup_cons] at hnodup
    rw [forall_mem_cons] at hsame
    rw [foldl_cons, foldl_cons]
    refine foldl_planDelete_sums hnodup.2 (fun other hother => ?_) (planDelete_sums hsame.1 hp)
    have hne : name ≠ other := fun heq => hnodup.1 (heq ▸ hother)
    rw [get_erase, if_neg hne]
    exact hsame.2 other hother

/-- A plan that is accepted has the sums of the records that will be written, within the
limits. -/
theorem plan_sums (hs : s.Accounted env) (h : s.plan env request now = .ok p) :
    p.Sums env (s.written request) ∧ p.count ≤ s.maxSessions ∧ p.total ≤ s.maxBytes := by
  obtain ⟨hupserts, hdeletes, hdisjoint⟩ := nodup_append.1 (plan_spec h).nodup
  unfold plan at h
  dsimp only at h
  split at h
  · cases h
  split at h
  · cases h
  split at h
  · cases h
  obtain ⟨upserted, hupserted, hrest⟩ := Runs.exists_of_bind_ok h
  split at hrest
  · cases hrest
  rename_i hlimits
  cases hrest
  rw [not_or, Int.not_lt, Int.not_lt] at hlimits
  refine ⟨foldl_planDelete_sums hdeletes (fun name hname => ?_) ?_, hlimits⟩
  · refine get_foldl_insert_of_not_mem fun hmem => ?_
    exact hdisjoint name hmem name hname rfl
  · refine foldlM_planUpsert_sums hupserts (fun _ _ => rfl) ⟨?_, hs.bytes_eq⟩ hupserted
    rw [← size_eq_mapSum]

/-! ## Steps and runs -/

theorem commit_accounts (env : Env) (s : Store) (request : ApplyRequest) (p : Plan) :
    (s.commit env request p).bytes = p.total ∧
      (s.commit env request p).maxSessions = s.maxSessions ∧
      (s.commit env request p).maxBytes = s.maxBytes := by
  unfold commit drawRevision drawVersion
  split <;> split <;> exact ⟨rfl, rfl, rfl⟩

/-- Every `Apply` keeps the accounts. -/
theorem Store.Accounted.apply {durable} (hs : s.Accounted env) :
    (s.apply env request now durable).2.Accounted env := by
  have hnamed : (s.apply env request now durable).2.Named env := hs.named.apply
  rcases apply_eq_or_commit env s request now durable with heq | ⟨p, hplan, heq⟩
  · rw [heq]
    exact hs
  · rw [heq] at hnamed ⊢
    obtain ⟨hsums, hcount, htotal⟩ := plan_sums hs hplan
    obtain ⟨hbytes, hsessions, hmax⟩ := commit_accounts env s request p
    have hwritten := (@commit_spec env s request p).sessions
    refine ⟨hnamed, ?_, ?_, ?_⟩
    · rw [hbytes, hwritten, hsums.total]
    · have hsum := hsums.count
      rw [hsessions, hwritten, size_eq_mapSum]
      omega
    · rwa [hbytes, hmax]

end Mqtts.Authz

import Mqtts.Authz.Revisions

/-!
# Listing the sessions

`List` returns the records of a namespace in pages, cut by a number and by bytes.
-/

namespace Mqtts.Authz

open List Std Session

def maxRpcBytes : Nat := 4 * 1024 * 1024

/-- The loop of `List` over the names of a page. -/
def listLoop (env : Env) (next : Str) : Nat → List Session → List (Str × Session) →
    List Session × Str
  | _, rows, [] => (rows, next)
  | size, rows, (_, row) :: rest =>
    if size + env.size row > maxRpcBytes / 2 ∧ rows ≠ [] then
      (rows, (rows.getLast?.map username).getD [])
    else listLoop env next (size + env.size row) (rows ++ [row]) rest

/-- The records of a namespace behind a name. -/
def Store.keysAfter (s : Store) (nspace after : Str) : List (Str × Session) :=
  s.sessions.toList.filter fun row => row.2.nspace = nspace && compare after row.1 == .lt

/-- `List`: a page and the cursor of the next one. -/
def Store.list (env : Env) (s : Store) (nspace after : Str) (limit : Int) : List Session × Str :=
  let limit := if limit < 1 ∨ limit > 128 then 64 else limit.toNat
  let keys := s.keysAfter nspace after
  let next := if keys.length > limit then ((keys.take limit).getLast?.map Prod.fst).getD [] else []
  listLoop env next 0 [] (keys.take limit)

/-- Page after page, each from the cursor of the one before. -/
def Store.pages (env : Env) (s : Store) (nspace : Str) (limit : Int) : Nat → Str →
    Option (List (List Session))
  | 0, _ => none
  | n + 1, after =>
    let page := s.list env nspace after limit
    if page.2 = [] then some [page.1]
    else (s.pages env nspace limit n page.2).map (page.1 :: ·)

/-- Every record stands under its own name and is not too long. -/
def Store.Named (env : Env) (s : Store) : Prop :=
  ∀ (k : Str) row, s.sessions[k]? = some row →
    row.username = k ∧ k ≠ [] ∧ env.size row ≤ maxSessionBytes

variable {env : Env} {s : Store} {nspace after next : Str}

/-! ## The content -/

theorem plan_valid {request now p} (h : s.plan env request now = .ok p) :
    ∀ row ∈ request.upserts, row.username ≠ [] ∧ env.size row ≤ maxSessionBytes := by
  unfold Store.plan at h
  dsimp only at h
  split at h
  · cases h
  split at h
  · cases h
  rename_i hchecks
  intro row hrow
  simp only [Bool.or_eq_true, Bool.not_eq_true', not_or, Bool.not_eq_false, all_eq_true,
    validate, Bool.and_eq_true, Bool.or_eq_false_iff, isEmpty_eq_false_iff,
    decide_eq_false_iff_not, Nat.not_lt] at hchecks
  have hvalid := (hchecks.1.1 row hrow).1.1
  exact ⟨hvalid.1.1.1.1.1.1.1.1.1.1, hvalid.2⟩

/-- Every `Apply` keeps it so. -/
theorem Store.Named.apply {request now durable} (hs : s.Named env) :
    (s.apply env request now durable).2.Named env := by
  rcases apply_eq_or_commit env s request now durable with heq | ⟨p, hplan, heq⟩
  · rwa [heq]
  · intro k row hget
    rw [heq, (commit_spec p).sessions] at hget
    rcases get_written (plan_spec hplan).nodup k with ⟨-, hnone⟩ | ⟨row', hmem, hk, hsome⟩ | hold
    · cases hnone.symm.trans hget
    · cases hsome.symm.trans hget
      have hvalid := plan_valid hplan row hmem
      exact ⟨hk, hk ▸ hvalid.1, hvalid.2⟩
    · exact hs k row (hold.symm.trans hget)

theorem Store.Named.of_mem (hs : s.Named env) {e} (he : e ∈ s.keysAfter nspace after) :
    e.2.username = e.1 ∧ e.1 ≠ [] ∧ env.size e.2 ≤ maxSessionBytes :=
  hs _ _ (ExtTreeMap.mem_toList_iff_getElem?_eq_some.1 (mem_filter.1 he).1)

/-! ## The pages -/

def sizeOf (env : Env) (taken : List (Str × Session)) : Nat := (taken.map (env.size ·.2)).sum

theorem listLoop_spec : ∀ {keys done : List (Str × Session)},
    (∀ e ∈ done ++ keys, e.2.username = e.1 ∧ env.size e.2 ≤ maxRpcBytes / 2) →
    sizeOf env done ≤ maxRpcBytes / 2 → ∃ taken rest cursor, keys = taken ++ rest ∧
      listLoop env next (sizeOf env done) (done.map Prod.snd) keys =
        ((done ++ taken).map Prod.snd, cursor) ∧ sizeOf env (done ++ taken) ≤ maxRpcBytes / 2 ∧
      (rest = [] ∧ cursor = next ∨ ∃ earlier row, done ++ taken = earlier ++ [(cursor, row)])
  | [], done, _, hle => ⟨[], [], next, rfl, by simp [listLoop], by simpa, .inl ⟨rfl, rfl⟩⟩
  | (k, row) :: keys, done, hkeys, hle => by
    unfold listLoop
    split
    case isTrue hfull =>
      obtain ⟨earlier, e, rfl⟩ := (eq_nil_or_concat' done).resolve_left (by simpa using hfull.2)
      refine ⟨[], _, e.1, rfl, ?_, by simpa, .inr ⟨earlier, e.2, by simp⟩⟩
      simp [(hkeys e (by simp)).1]
    case isFalse hroom =>
      have hsize : sizeOf env (done ++ [(k, row)]) = sizeOf env done + env.size row := by
        simp [sizeOf]
      have hle' : sizeOf env (done ++ [(k, row)]) ≤ maxRpcBytes / 2 := by
        rw [hsize]
        by_cases hdone : done = []
        · subst hdone
          simpa [sizeOf] using (hkeys (k, row) (by simp)).2
        · exact Nat.not_lt.1 fun hlt => hroom ⟨hlt, by simpa⟩
      obtain ⟨taken, rest, cursor, rfl, hrows, hfits, hnext⟩ :=
        @listLoop_spec keys (done ++ [(k, row)]) (by simpa using hkeys) hle'
      rw [hsize, map_append] at hrows
      rw [append_assoc] at hrows hfits hnext
      exact ⟨(k, row) :: taken, rest, cursor, rfl, hrows, hfits, hnext⟩

/-- The cursor of a page is the last name on it. -/
theorem list_spec (hs : s.Named env) (nspace after : Str) (limit : Int) :
    ∃ taken rest cursor, s.keysAfter nspace after = taken ++ rest ∧
      s.list env nspace after limit = (taken.map Prod.snd, cursor) ∧
      sizeOf env taken ≤ maxRpcBytes / 2 ∧
      (rest = [] ∧ cursor = [] ∨ ∃ earlier row, taken = earlier ++ [(cursor, row)]) := by
  unfold Store.list
  dsimp only
  generalize hn : (if limit < 1 ∨ limit > 128 then 64 else limit.toNat) = n
  generalize hkeys : s.keysAfter nspace after = keys
  have hok : ∀ e ∈ [] ++ keys.take n, e.2.username = e.1 ∧ env.size e.2 ≤ maxRpcBytes / 2 := by
    intro e he
    obtain ⟨hname, -, hsize⟩ := hs.of_mem (hkeys ▸ mem_of_mem_take he)
    exact ⟨hname, hsize.trans (by decide)⟩
  obtain ⟨taken, rest, cursor, htake, hlist, hfits, hnext⟩ := @listLoop_spec env (if
    keys.length > n then ((keys.take n).getLast?.map Prod.fst).getD [] else []) _ [] hok
      (Nat.zero_le _)
  refine ⟨taken, rest ++ keys.drop n, cursor, ?_, hlist, hfits, ?_⟩
  · rw [← append_assoc, ← htake, take_append_drop]
  rcases hnext with ⟨rfl, rfl⟩ | hlast
  · rw [append_nil] at htake
    split
    case isTrue hmore =>
      have hpos : 0 < n := by split at hn <;> omega
      obtain ⟨earlier, e, he⟩ := (eq_nil_or_concat' (keys.take n)).resolve_left fun h => by
        have := congrArg length h
        rw [length_take, length_nil] at this
        omega
      exact .inr ⟨earlier, e.2, by rw [← htake, he]; simp⟩
    case isFalse hall => exact .inl ⟨by simpa using hall, rfl⟩
  · exact .inr hlast

/-- Behind the cursor lie exactly the names that the page leaves. -/
theorem keysAfter_rest {earlier rest} {k : Str} {row}
    (h : s.keysAfter nspace after = earlier ++ (k, row) :: rest) : s.keysAfter nspace k = rest := by
  have hsorted : (s.keysAfter nspace after).Pairwise fun a b => compare a.1 b.1 = .lt :=
    ExtTreeMap.ordered_keys_toList.filter _
  have hk : compare after k = .lt := by
    have hmem : (k, row) ∈ s.keysAfter nspace after := by simp [h]
    have hboth := (mem_filter.1 hmem).2
    simp only [Bool.and_eq_true, beq_iff_eq] at hboth
    exact hboth.2
  have hfilter : s.keysAfter nspace k =
      (s.keysAfter nspace after).filter fun e => compare k e.1 == .lt := by
    rw [Store.keysAfter, Store.keysAfter, filter_filter]
    refine filter_congr fun e _ => ?_
    have htrans : compare k e.1 = .lt → compare after e.1 = .lt := TransCmp.lt_trans hk
    grind
  rw [h, pairwise_append, pairwise_cons] at hsorted
  obtain ⟨-, ⟨hrest, -⟩, hearlier⟩ := hsorted
  rw [hfilter, h, filter_append, filter_cons, filter_eq_nil_iff.2, filter_eq_self.2]
  · simp
  · intro e he
    simp [hrest e he]
  · intro e he
    simp [OrientedCmp.gt_of_lt (hearlier e he _ mem_cons_self)]

theorem pages_spec (hs : s.Named env) (limit : Int) : ∀ {n after},
    (s.keysAfter nspace after).length < n → ∃ pages, s.pages env nspace limit n after = some pages ∧
      pages.flatten = (s.keysAfter nspace after).map Prod.snd ∧
      ∀ page ∈ pages, (page.map env.size).sum ≤ maxRpcBytes / 2
  | n + 1, after, hn => by
    obtain ⟨taken, rest, cursor, hkeys, hlist, hfits, hnext⟩ := list_spec hs nspace after limit
    have hfits : ((taken.map Prod.snd).map env.size).sum ≤ maxRpcBytes / 2 := by
      rwa [map_map]
    rw [Store.pages, hlist]
    split
    case isTrue hend =>
      refine ⟨_, rfl, ?_, by simpa using hfits⟩
      rcases hnext with ⟨rfl, -⟩ | ⟨earlier, row, rfl⟩
      · simp [hkeys]
      -- no name is empty
      · have hmem : (cursor, row) ∈ s.keysAfter nspace after := by simp [hkeys]
        exact ((hs.of_mem hmem).2.1 hend).elim
    case isFalse hmore =>
      obtain ⟨earlier, row, rfl⟩ := hnext.resolve_left fun h => hmore h.2
      rw [append_assoc, singleton_append] at hkeys
      have hrest := keysAfter_rest hkeys
      obtain ⟨pages, hpages, hflatten, hall⟩ := @pages_spec hs limit n cursor (by
        rw [hrest]
        simp [hkeys] at hn
        omega)
      refine ⟨_, by rw [hpages]; rfl, ?_, forall_mem_cons.2 ⟨hfits, hall⟩⟩
      rw [flatten_cons, hflatten, hrest, hkeys]
      simp

/-- The pages from the empty cursor on end, are exactly the records of the namespace, in the order
of their names, and are small enough. -/
theorem pages_complete (hs : s.Named env) (nspace : Str) (limit : Int) :
    ∃ n, ∃ pages : List (List Session), s.pages env nspace limit n [] = some pages ∧
      pages.flatten.Pairwise (fun a b => compare a.username b.username = .lt) ∧
      (∀ row, row ∈ pages.flatten ↔
        s.sessions[row.username]? = some row ∧ row.nspace = nspace) ∧
      ∀ page ∈ pages, (page.map env.size).sum ≤ maxRpcBytes / 2 := by
  obtain ⟨pages, hpages, hflatten, hfits⟩ :=
    @pages_spec env s nspace hs limit _ [] (Nat.lt_succ_self _)
  refine ⟨_, pages, hpages, ?_, fun row => ?_, hfits⟩
  · rw [hflatten, pairwise_map]
    refine (ExtTreeMap.ordered_keys_toList.filter _).imp_of_mem fun ha hb hlt => ?_
    rw [(hs.of_mem ha).1, (hs.of_mem hb).1]
    exact hlt
  · rw [hflatten, mem_map]
    constructor
    · rintro ⟨e, he, rfl⟩
      obtain ⟨hmem, hboth⟩ := mem_filter.1 he
      simp only [Bool.and_eq_true, decide_eq_true_eq] at hboth
      rw [(hs.of_mem he).1]
      exact ⟨ExtTreeMap.mem_toList_iff_getElem?_eq_some.1 hmem, hboth.1⟩
    · rintro ⟨hsome, hnspace⟩
      have hlt : compare [] row.username = .lt := by
        obtain ⟨b, bs, hb⟩ := exists_cons_of_ne_nil (hs _ _ hsome).2.1
        rw [hb]
        rfl
      refine ⟨_, mem_filter.2 ⟨ExtTreeMap.mem_toList_iff_getElem?_eq_some.2 hsome, ?_⟩, rfl⟩
      simp [hnspace, hlt]

/-- Two records of the namespace `n`, `u` and `v`, and one of `m`. -/
def listedStore : Store :=
  { sampleOpened.store with
    sessions := ((sampleOpened.store.sessions.insert [0x76]
      { sampleSession 2000 with username := [0x76] }).insert [0x77]
      { sampleSession 2000 with username := [0x77], nspace := [0x6d] })
    bytes := 3, maxSessions := 3 }

/-- With a limit of one there are two pages, and the second call starts behind `u`. -/
theorem pages_complete_two :
    listedStore.pages sampleEnv [0x6e] 1 2 [] =
        some [[sampleSession 2000], [{ sampleSession 2000 with username := [0x76] }]] ∧
      ∃ n pages, listedStore.pages sampleEnv [0x6e] 1 n [] = some pages ∧
        sampleSession 2000 ∈ pages.flatten ∧
        { sampleSession 2000 with username := [0x76] } ∈ pages.flatten ∧
        { sampleSession 2000 with username := [0x77], nspace := [0x6d] } ∉ pages.flatten := by
  have hnamed : listedStore.Named sampleEnv := by
    intro k row h
    simp only [listedStore, sampleOpened, Maps.get_insert] at h
    split_ifs at h with hw hv hu
    · cases h
      exact ⟨hw, by simp [← hw], by decide⟩
    · cases h
      exact ⟨hv, by simp [← hv], by decide⟩
    · cases h
      exact ⟨hu, by simp [← hu], by decide⟩
    · simp at h
  obtain ⟨n, pages, hpages, -, hmem, -⟩ := pages_complete hnamed [0x6e] 1
  refine ⟨by decide +kernel, n, pages, hpages, (hmem _).2 ?_, (hmem _).2 ?_, fun h => ?_⟩
  · exact ⟨by decide +kernel, rfl⟩
  · exact ⟨by decide +kernel, rfl⟩
  · exact absurd ((hmem _).1 h).2 (by decide)

end Mqtts.Authz

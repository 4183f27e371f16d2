import Mqtts.Durable.Ledger

/-!
# What the steps of the store keep

Steps that keep the ledger compose, and there is one lemma per step of the state. At the end of the
module are the loops that calls and timers run: `erase_session`, `expire`, the loop of `fetch`,
heartbeats.
-/

namespace Mqtts.Durable

open Std (ExtTreeMap ExtTreeSet)
open Option List Maps

namespace Store

def grip (t : Session) : Nat × Bool := (t.object, t.busy)

def Holding (s : Store) (ref : SessionRef) : Prop :=
  (s.sessions[ref.client]?).map grip = some (ref.object, true)

def Free (s : Store) (c : Str) : Prop := ∀ t, s.sessions[c]? = some t → t.busy = false

/-- A step keeps the ledger sound and within the limits, and a session that waits for a record goes
on waiting, unless its client is one of `own`. -/
structure Keeps (cfg : Config) (own : List Str) (s s' : Store) : Prop where
  sound : s.Sound → s'.Sound
  bounded : s.Sound → s.Bounded cfg → s'.Bounded cfg
  spares : ∀ {ref}, ref.client ∉ own → s.Holding ref → s'.Holding ref

variable {cfg : Config} {own : List Str} {s s' : Store}

theorem Free.not_holding {ref} (h : s.Free ref.client) : ¬ s.Holding ref := by
  intro hh
  obtain ⟨t, ht, hgrip⟩ := map_eq_some_iff.1 hh
  have hbusy := congrArg Prod.snd hgrip
  rw [grip, h t ht] at hbusy
  cases hbusy

namespace Keeps

theorem refl (s : Store) : Keeps cfg own s s := ⟨id, fun _ => id, fun _ => id⟩

theorem trans {s₁ s₂ s₃} (h : Keeps cfg own s₁ s₂) (h' : Keeps cfg own s₂ s₃) :
    Keeps cfg own s₁ s₃ :=
  ⟨fun hs => h'.sound (h.sound hs), fun hs hb => h'.bounded (h.sound hs) (h.bounded hs hb),
    fun hown hh => h'.spares hown (h.spares hown hh)⟩

theorem wide (h : Keeps cfg [] s s') : Keeps cfg own s s' :=
  ⟨h.sound, h.bounded, fun _ => h.spares not_mem_nil⟩

theorem foldl {α : Type} {f : Store → α → Store} (h : ∀ s a, Keeps cfg own s (f s a)) :
    ∀ (as : List α) s, Keeps cfg own s (as.foldl f s)
  | [], s => .refl s
  | a :: as, s => (h s a).trans (foldl h as (f s a))

theorem free (own : List Str) (h : Keeps cfg own s s') (hfree : ∀ c ∈ own, s.Free c) : Keeps cfg []
    s s' := by
  refine ⟨h.sound, h.bounded, fun {ref} _ hh => ?_⟩
  by_cases hown : ref.client ∈ own
  · exact absurd hh (hfree _ hown).not_holding
  · exact h.spares hown hh

theorem of_still (h : s.Sound → Still s s')
    (hgrip : ∀ c ∉ own, (s'.sessions[c]?).map grip = (s.sessions[c]?).map grip) :
    Keeps cfg own s s' := by
  refine ⟨fun hs => (h hs).sound hs, fun hs hb => (h hs).bounded hb, fun {ref} hown hh => ?_⟩
  rw [Holding, hgrip _ hown]
  exact hh

theorem of_same (h : Still s s') (hs : s'.sessions = s.sessions) : Keeps cfg own s s' :=
  of_still (fun _ => h) fun c _ => by rw [hs]

end Keeps

/-! ## Sessions -/

variable {c : Str} {t t' : Session} {id : Nat} {d : DeliveryState}

theorem grip_put (hgrip : c ∈ own ∨ (s.sessions[c]?).map grip = some (grip t)) {c'}
    (hc' : c' ∉ own) : ((s.put c t).sessions[c']?).map grip = (s.sessions[c']?).map grip := by
  rw [put, get_insert]
  split
  · next hc =>
      subst hc
      exact (hgrip.resolve_left hc').symm
  · rfl

theorem keeps_put (ht : s.sessions[c]? = some t) (haccount : account (some t') = account (some t))
    (hclient : t'.client = t.client) (hgrip : c ∈ own ∨ grip t' = grip t) :
    Keeps cfg own s (s.put c t') := by
  refine .of_still (fun _ => still_put ?_ fun hk => hclient.trans (hk c t ht)) fun c' hc' =>
    grip_put (hgrip.imp_right fun h => ?_) hc'
  · rw [ht, haccount]
  · rw [ht, map_some, h]

theorem keeps_join (hnone : s.sessions[c]? = none) (haccount : account (some t) = account none)
    (hclient : t.client = c) : Keeps cfg [c] s (s.put c t) := by
  refine .of_still (fun _ => still_put ?_ fun _ => hclient) fun c' hc' =>
    grip_put (.inl mem_cons_self) hc'
  rw [hnone, haccount]

theorem keeps_edit {f : Session → Session} (hrest : SameRest s s') (hledger : SameLedger s s')
    (hsessions : ∀ c', s'.sessions[c']? = if c = c' then (s.sessions[c']?).map f else
    s.sessions[c']?) (haccount : ∀ t, account (some (f t)) = account (some t))
    (hclient : ∀ t, (f t).client = t.client) (hgrip : c ∈ own ∨ ∀ t, grip (f t) = grip t) :
    Keeps cfg own s s' := by
  refine .of_still (fun _ => ⟨hrest.nextId.ge, hrest.objects.ge, hledger.pending, hledger.bytes,
    hledger.uniqueBytes, fun r => .inl (by rw [hledger.messages]), fun c' => ?_,
    fun hk c' t' ht' => ?_⟩) fun c' hc' => ?_
  · rw [hsessions]
    split
    · cases s.sessions[c']? with
      | none => rfl
      | some t => exact haccount t
    · rfl
  · rw [hsessions] at ht'
    split at ht'
    · obtain ⟨t, ht, rfl⟩ := map_eq_some_iff.1 ht'
      exact (hclient t).trans (hk c' t ht)
    · exact hk c' t' ht'
  · rw [hsessions]
    split
    · next hc =>
        subst hc
        have hsame := hgrip.resolve_left hc'
        rw [Option.map_map]
        exact congrArg (Option.map · _) (funext hsame)
    · rfl

variable (ref : SessionRef)

theorem sameLedger_modify (f : Session → Session) : SameLedger s (s.modify ref f) := by
  rw [modify]
  split <;> exact ⟨rfl, rfl, rfl, rfl⟩

theorem keeps_modify {f : Session → Session}
    (haccount : ∀ t, account (some (f t)) = account (some t))
    (hclient : ∀ t, (f t).client = t.client) (hgrip : ref.client ∈ own ∨ ∀ t, grip (f t) = grip t) :
    Keeps cfg own s (s.modify ref f) := by
  have hif : ∀ {β : Type} (g : Session → β), (∀ t, g (f t) = g t) → ∀ t : Session,
      g (if t.object = ref.object then f t else t) = g t := by
    intro β g hg t
    split
    · exact hg t
    · rfl
  exact keeps_edit (localTo_modify ref f).rest (sameLedger_modify ref f) (sessions_modify ref f)
    (hif (fun t => account (some t)) haccount) (hif Session.client hclient)
    (hgrip.imp_right (hif grip))

theorem keeps_notBusy (hown : ref.client ∈ own) : Keeps cfg own s (s.notBusy ref) :=
  keeps_modify ref (fun _ => rfl) (fun _ => rfl) (.inl hown)

theorem keeps_modifyDelivery (id : Nat) {f : DeliveryState → DeliveryState}
    (h : ∀ d, (f d).message = d.message) : Keeps cfg own s (s.modifyDelivery ref id f) := by
  refine keeps_modify ref (fun t => ?_) (fun t => ?_) (.inr fun t => ?_)
  · cases hd : t.pending[id]? with
    | none => rfl
    | some d => exact account_insert hd (h d)
  · cases t.pending[id]? <;> rfl
  · cases t.pending[id]? <;> rfl

theorem keeps_markAttempted (sequences : List Nat) :
    Keeps cfg own s (s.markAttempted ref sequences) := by
  refine .foldl (fun s id => ?_) sequences s
  exact keeps_modifyDelivery ref id fun _ => rfl

theorem keeps_startClaim (claim : Nat × Nat) : Keeps cfg own s (s.startClaim ref claim) := by
  have hfirst : Keeps cfg own s (s.modify ref fun t =>
      { t with packets := t.packets.insert claim.2 claim.1, nextPacket := claim.2 % 65535 + 1 }) :=
    keeps_modify ref (fun _ => rfl) (fun _ => rfl) (.inr fun _ => rfl)
  exact hfirst.trans (keeps_modifyDelivery ref claim.1 fun _ => rfl)

theorem keeps_scheduleSession (c : Str) (deadline : Int) :
    Keeps cfg own s (s.scheduleSession c deadline) := by
  refine keeps_edit (localTo_scheduleSession c deadline).rest ?_
    (sessions_scheduleSession c deadline)
    (fun _ => rfl) (fun _ => rfl) (.inr fun _ => rfl)
  rw [scheduleSession]
  split <;> exact ⟨rfl, rfl, rfl, rfl⟩

theorem keeps_scheduleMessage (r : Nat) : Keeps cfg own s (s.scheduleMessage r) := by
  rw [scheduleMessage]
  split
  · exact .of_same { Still.refl s with } rfl
  · exact .refl s

theorem sessions_setSubscription (c filter : Str) (sub : Option StoredSubscription) (c' : Str) :
    (s.setSubscription c filter sub).sessions[c']? =
      if c = c' then
        (s.sessions[c']?).map fun t => { t with
          subscriptions := sub.elim (t.subscriptions.erase filter)
            ((t.subscriptions.erase filter).insert filter) }
      else s.sessions[c']? := by
  cases sub with
  | none => exact sessions_removeSubscription c filter c'
  | some sub =>
    refine (sessions_addSubscription c filter sub c').trans ?_
    rw [sessions_removeSubscription]
    by_cases hc : c = c'
    · rw [if_pos hc, if_pos hc, if_pos hc, Option.map_map]
      rfl
    · rw [if_neg hc, if_neg hc, if_neg hc]

theorem keeps_setSubscription (c filter : Str) (sub : Option StoredSubscription) :
    Keeps cfg own s (s.setSubscription c filter sub) :=
  keeps_edit (localTo_setSubscription c filter sub).rest (sameLedger_setSubscription c filter sub)
    (sessions_setSubscription c filter sub) (fun _ => rfl) (fun _ => rfl) (.inr fun _ => rfl)

theorem keeps_markOverflow (sequence : Nat) : Keeps cfg own s (s.markOverflow ref sequence) := by
  rw [markOverflow]
  cases hfind : s.find ref with
  | none => exact .refl s
  | some t =>
    dsimp only
    split
    · exact .refl s
    · have hput : Keeps cfg own s (s.put ref.client { t with overflowSequence := sequence }) :=
        keeps_put (find_eq_some.1 hfind).1 rfl rfl (.inr rfl)
      exact hput.trans (.of_same { Still.refl _ with } rfl)

/-! ## Deliveries -/

theorem keyed_insert_iff (ht : s.sessions[c]? = some t) (hclient : t'.client = t.client)
    (hsessions : s'.sessions = s.sessions.insert c t') : s.Keyed ↔ s'.Keyed := by
  constructor <;> intro h c' u hu
  · rw [hsessions] at hu
    exact keyed_put h (hclient.trans (h c t ht)) c' u hu
  · by_cases hc : c = c'
    · subst hc
      rw [ht] at hu
      cases hu
      exact hclient.symm.trans (h c t' (by rw [hsessions, get_insert, if_pos rfl]))
    · exact h c' u (by rw [hsessions, get_insert, if_neg hc]; exact hu)

theorem account_get (id : Nat) : (account (some t)).2[id]? = (t.pending[id]?).map (·.message) := by
  simp only [account, elim_some, ExtTreeMap.getElem?_map]

theorem oneMore_insert {r} (ht : s.sessions[c]? = some t) (hid : t.pending[id]? = none)
    (hr : r < s.objects) (hm : (s.messages r).id = id) (hd : d.message = r)
    (hpending : t'.pending = t.pending.insert id d) (hbytes : t'.bytes = t.bytes + s.sizeOf r)
    (hclient : t'.client = t.client) :
    OneMore s
      { s.reference r t.ref with
        pending := s.pending + 1
        bytes := s.bytes + s.sizeOf r
        sessions := s.sessions.insert c t' } c id r := by
  have hmessages : ∀ {β : Type} (g : Message → β), (∀ n rs, g { s.messages r with
      references := n, recipients := rs } = g (s.messages r)) →
      ∀ r', g ((s.reference r t.ref).messages r') = g (s.messages r') := by
    intro β g hg r'
    by_cases hr' : r' = r
    · subst hr'
      simp only [reference, setMessage, Function.update_self, hg]
    · simp only [reference, setMessage, Function.update_of_ne hr']
  refine ⟨?_, fun c' hc => by rw [get_insert, if_neg hc], keyed_insert_iff ht hclient rfl, ?_, hr,
    hm,
    rfl, rfl, hmessages Message.id fun _ _ => rfl, hmessages (·.wire.length) fun _ _ => rfl,
    fun r' => ?_, rfl, rfl, ?_⟩
  · rw [get_insert, if_pos rfl, ht]
    refine Prod.ext hbytes (ExtTreeMap.ext_getElem? fun id' => ?_)
    rw [account_get, hpending, get_insert, get_insert, account_get]
    split
    · rw [map_some, hd]
    · rfl
  · rw [ht, account_get, hid, map_none]
  · by_cases hr' : r' = r
    · subst hr'
      simp [reference, setMessage]
    · simp [reference, setMessage, hr', Ne.symm hr']
  · dsimp only [reference, sizeOf]
    split <;> rfl

theorem oneMore_attach {r} (ht : s.sessions[c]? = some t) (hid : t.pending[id]? = none)
    (hr : r < s.objects) (hm : (s.messages r).id = id) (p : Nat) :
    OneMore s (s.attach c id r p) c id r := by
  rw [attach_of_get ht hid]
  exact oneMore_insert (d := { message := r, packet := p }) ht hid hr hm rfl rfl rfl rfl

theorem grip_attach (c : Str) (id r p : Nat) (c' : Str) :
    ((s.attach c id r p).sessions[c']?).map grip = (s.sessions[c']?).map grip := by
  rw [attach]
  cases ht : s.sessions[c]? with
  | none => rfl
  | some t =>
    rw [get_insert]
    split
    · next hc => rw [← hc, ht]; rfl
    · rfl

theorem le_load (ht : s.sessions[c]? = some t) (hd : t.pending[id]? = some d) (f : Nat → Nat) :
    f d.message ≤ t.load f ∧ t.load f ≤ s.load f := by
  have hown : t.load f = f d.message + _ := mapSum_of_get hd
  have hall : s.load f = t.load f + _ := mapSum_of_get ht
  exact ⟨hown ▸ Nat.le_add_right _ _, hall ▸ Nat.le_add_right _ _⟩

theorem oneMore_drop (hs : s.Sound) (ht : s.sessions[c]? = some t) (hd : t.pending[id]? = some d) :
    OneMore (s.drop c id) s c id d.message := by
  have hget : (account (s.sessions[c]?)).2[id]? = some d.message := by
    rw [ht, account_get, hd, map_some]
  obtain ⟨hr, hm⟩ := hs.linked hget
  have hsize := (le_load ht hd s.sizeOf).1
  rw [← hs.exact.session ht] at hsize
  have hpending := (le_load ht hd fun _ => 1).1.trans (le_load ht hd fun _ => 1).2
  rw [← pending_eq_load, ← hs.exact.pending] at hpending
  have hbytes : t.bytes ≤ s.bytes := by
    have hsum := mapSum_of_get (f := fun _ (t : Session) => t.bytes) ht
    rw [hs.exact.bytes, hsum]
    exact Nat.le_add_right _ _
  have hrefs : 1 ≤ (s.messages d.message).references := by
    have hle := le_load ht hd fun r' => if r' = d.message then 1 else 0
    rw [if_pos rfl] at hle
    rw [hs.exact.references]
    exact hle.1.trans hle.2
  have hunique : s.sizeOf d.message ≤ s.uniqueBytes := by
    rw [hs.exact.uniqueBytes]
    have hheld : s.heldBytes d.message = s.sizeOf d.message := if_neg (by omega)
    rw [← hheld, ← Finset.add_sum_erase _ s.heldBytes (Finset.mem_range.2 hr)]
    exact Nat.le_add_right _ _
  have hbodies := (localTo_drop (s := s) c id).bodies
  have hsizes : ∀ r', s.sizeOf r' = (s.drop c id).sizeOf r' := fun r' => by
    rw [sizeOf, sizeOf, hbodies.wire]
  have hreferences : ∀ r', ((s.drop c id).messages r').references =
      if r' = d.message then (s.messages d.message).references - 1
      else (s.messages r').references := by
    intro r'
    rw [drop_of_get ht hd]
    by_cases hr' : r' = d.message
    · subst hr'
      simp [setMessage]
    · simp [setMessage, hr']
  have hself : (s.drop c id).sessions[c]? = some (s.without t id d) := by
    rw [sessions_drop_self id ht, hd]
    rfl
  refine ⟨?_, fun c' hc => ((localTo_drop c id).others c' hc).symm, ?_, ?_, ?_, ?_, ?_, ?_,
    fun r' => (hbodies.id r').symm, hsizes, fun r' => ?_, ?_, ?_, ?_⟩
  · rw [hself, ht, ← hsizes]
    refine Prod.ext (Nat.sub_add_cancel hsize).symm (ExtTreeMap.ext_getElem? fun id' => ?_)
    rw [account_get, get_insert, account_get, without, get_erase]
    split
    · next hid => rw [← hid, hd, map_some]
    · rfl
  · have hsessions : (s.drop c id).sessions = s.sessions.insert c (s.without t id d) := by
      rw [drop_of_get ht hd]
    have hclient : (s.without t id d).client = t.client := rfl
    exact (keyed_insert_iff ht hclient hsessions).symm
  · rw [hself, account_get, without, get_erase, if_pos rfl, map_none]
  · rw [(localTo_drop c id).rest.objects]
    exact hr
  · rw [hbodies.id]
    exact hm
  · exact (localTo_drop c id).rest.nextId.symm
  · exact (localTo_drop c id).rest.objects.symm
  · rw [hreferences]
    split
    · rename_i hr'
      rw [if_pos hr'.symm, hr', Nat.sub_add_cancel hrefs]
    · rename_i hr'
      rw [if_neg (Ne.symm hr'), Nat.add_zero]
  · rw [drop_of_get ht hd]
    exact (Nat.sub_add_cancel hpending).symm
  · rw [← hsizes, drop_of_get ht hd]
    exact (Nat.sub_add_cancel (hsize.trans hbytes)).symm
  · rw [← hsizes, hreferences, if_pos rfl, drop_of_get ht hd]
    dsimp only
    split
    · exact (Nat.sub_add_cancel hunique).symm
    · rfl

theorem keeps_drop (c : Str) (id : Nat) : Keeps cfg own s (s.drop c id) := by
  rcases s.drop_cases c id with heq | ⟨t, d, ht, hd⟩
  · rw [heq]
    exact .refl s
  refine ⟨fun hs => (oneMore_drop hs ht hd).sound_iff.1 hs,
    fun hs => (oneMore_drop hs ht hd).bounded, fun {ref} hown hh => ?_⟩
  have hgrip := grip_put (s := s) (t := s.without t id d) (.inr (by rw [ht]; rfl)) hown
  rw [Holding, drop_of_get ht hd]
  exact hgrip.trans hh

theorem account_drops (c : Str) (id : Nat) : ∀ (deliveries : List (Nat × DeliveryState))
    (s : Store), (account ((deliveries.foldl (fun s e => s.drop c e.1) s).sessions[c]?)).2[id]? =
      if id ∈ deliveries.map Prod.fst then none else (account (s.sessions[c]?)).2[id]?
  | [], s => by simp
  | e :: rest, s => by
    have hone : (account ((s.drop c e.1).sessions[c]?)).2[id]? =
        if e.1 = id then none else (account (s.sessions[c]?)).2[id]? := by
      cases ht : s.sessions[c]? with
      | none =>
        rw [drop_of_none (by rw [ht]; rfl), ht]
        simp [account]
      | some t =>
        rw [sessions_drop_self _ ht, account_get, account_get]
        cases hd : t.pending[e.1]? with
        | none =>
          rw [elim_none]
          split
          · next hid => rw [← hid, hd, map_none]
          · rfl
        | some d =>
          rw [elim_some, without, get_erase]
          split <;> rfl
    rw [foldl_cons, account_drops c id rest, hone]
    by_cases hid : e.1 = id
    · simp [hid]
    · have hmem : id ∈ (e :: rest).map Prod.fst ↔ id ∈ rest.map Prod.fst := by
        rw [map_cons, mem_cons, or_iff_right (Ne.symm hid)]
      exact if_congr hmem.symm rfl (if_neg hid)

/-! ## Erasing a session -/

theorem account_dropAll (c : Str) : (account ((s.dropAll c).sessions[c]?)).2 = ∅ := by
  refine ExtTreeMap.ext_getElem? fun id => ?_
  rw [dropAll]
  cases ht : s.sessions[c]? with
  | none => rw [ht]; rfl
  | some t =>
    rw [account_drops, ht, account_get]
    cases hd : t.pending[id]? with
    | none => simp
    | some d =>
      have hmem := mem_map_of_mem (f := Prod.fst) (ExtTreeMap.mem_toList_iff_getElem?_eq_some.2 hd)
      rw [if_pos hmem]
      simp

theorem keeps_unlinkSession (c : Str) : Keeps cfg own s (s.unlinkSession c) := by
  rw [unlinkSession]
  cases s.sessions[c]? with
  | none => exact .refl s
  | some t =>
    have hfold : ∀ store : Store, Keeps cfg own store
        (t.subscriptions.toList.foldl (fun s e => s.setSubscription c e.1 none) store) :=
      .foldl (fun _ (e : Str × StoredSubscription) => keeps_setSubscription c e.1 none) _
    have hcount : ∀ n, Keeps cfg own s { s with isolatedSessions := n } := fun n =>
      .of_same { Still.refl s with } rfl
    have hbytes : ∀ (store : Store) (n : Nat), Keeps cfg own store
      { store with metadataBytes := n } :=
      fun store n => .of_same { Still.refl store with } rfl
    refine Keeps.trans ?_ (hbytes _ _)
    split
    · exact (hcount _).trans (hfold _)
    · exact hfold _

theorem account_emptied (c : Str) : (account ((s.emptied c).sessions[c]?)).2 = ∅ := by
  have hsched : (account (((s.dropAll c).scheduleSession c 0).sessions[c]?)).2 = ∅ := by
    rw [sessions_scheduleSession, if_pos rfl, ← account_dropAll (s := s) c]
    cases (s.dropAll c).sessions[c]? <;> rfl
  rw [emptied]
  generalize (s.dropAll c).scheduleSession c 0 = s₁ at hsched
  split
  · rw [unlinkSession]
    cases ht : s₁.sessions[c]? with
    | none => rw [← hsched]
    | some t =>
      have hfold : ∀ (subs : List (Str × StoredSubscription)) (s : Store), account
          ((subs.foldl (fun s e => s.setSubscription c e.1 none) s).sessions[c]?) =
            account (s.sessions[c]?) := by
        intro subs
        induction subs with
        | nil => exact fun _ => rfl
        | cons e rest ih =>
          intro s
          rw [foldl_cons, ih, sessions_setSubscription, if_pos rfl]
          cases s.sessions[c]? <;> rfl
      rw [← hsched]
      dsimp only
      split <;> rw [hfold]
  · exact hsched

theorem keeps_eraseSession (c : Str) : Keeps cfg [c] s (s.eraseSession c) := by
  have hempty := account_emptied (s := s) c
  have hemptied : Keeps cfg [c] s (s.emptied c) := by
    have hdrops : Keeps cfg [c] s (s.dropAll c) := by
      rw [dropAll]
      cases s.sessions[c]? with
      | none => exact .refl s
      | some t => exact .foldl (fun _ (e : Nat × DeliveryState) => keeps_drop c e.1) _ s
    have hsched := hdrops.trans (keeps_scheduleSession c 0)
    rw [emptied]
    split
    · exact hsched.trans (keeps_unlinkSession c)
    · exact hsched
  rw [eraseSession_eq]
  refine hemptied.trans (.of_still (fun hs => still_erase (Prod.ext ?_ hempty)) fun c' hc' => ?_)
  · rw [hs.bytes_account, hempty]
    exact mapSum_empty _
  · have hne : c ≠ c' := fun hc => hc' (hc ▸ mem_cons_self)
    rw [get_erase, if_neg hne]

/-! ## Expiry -/

theorem keeps_expireRecipients (r : Nat) : ∀ budget s,
    Keeps cfg [] s (expireRecipients r budget s).2
  | 0, s => .refl s
  | budget + 1, s => by
    rw [expireRecipients]
    split
    · exact .refl s
    have hcursor : Keeps cfg [] s (s.setMessage r
        { s.messages r with expiryCursor := (s.messages r).expiryCursor + 1 }) :=
      .of_same (still_setMessage rfl) rfl
    refine (hcursor.trans ?_).trans (keeps_expireRecipients r budget _)
    rw [expireRecipient]
    split
    · exact .refl _
    split
    · exact .refl _
    · split
      · exact .refl _
      · exact keeps_drop _ _

theorem keeps_expireMessages (now : Int) : ∀ rounds budget s,
    Keeps cfg [] s (expireMessages now rounds budget s)
  | 0, _, s => .refl s
  | rounds + 1, budget, s => by
    rw [expireMessages]
    split
    · exact .refl s
    rename_i expires id r _
    split
    · exact .refl s
    refine ((keeps_expireRecipients r budget s).trans ?_).trans
      (keeps_expireMessages now rounds _ _)
    split
    · exact .of_same { Still.refl _ with } rfl
    · exact .refl _

theorem keeps_expireSession (now : Int) (ht : s.sessions[c]? = some t) (budget : Nat) :
    Keeps cfg [] s (s.expireSession now c t budget).2 := by
  have hput : ∀ {own : List Str}, Keeps cfg own s (s.put c { t with scheduledExpiry := 0 }) :=
    keeps_put ht rfl rfl (.inr rfl)
  rw [expireSession]
  dsimp only
  split
  · exact hput.trans (keeps_scheduleSession c _)
  rename_i hbusy
  have hdrops : ∀ {own : List Str} (s : Store), Keeps cfg own s (s.dropSome c budget).2 := by
    intro own s
    rw [dropSome]
    cases s.sessions[c]? with
    | none => exact .refl s
    | some t => exact .foldl (fun _ (e : Nat × DeliveryState) => keeps_drop c e.1) _ s
  split
  · refine .free [c] ((hput.trans (hdrops _)).trans (keeps_eraseSession c)) fun c' hc' u hu =>
      ?_
    rw [mem_singleton] at hc'
    subst hc'
    rw [ht] at hu
    cases hu
    simpa using hbusy
  · exact (hput.trans (hdrops _)).trans (keeps_scheduleSession c _)

theorem keeps_expireSessions (now : Int) : ∀ rounds budget s,
    Keeps cfg [] s (expireSessions now rounds budget s)
  | 0, _, s => .refl s
  | rounds + 1, budget, s => by
    rw [expireSessions]
    split
    · exact .refl s
    rename_i deadline c object _
    dsimp only
    split
    · exact .refl s
    have hlist : Keeps cfg [] s
        { s with sessionExpiry := s.sessionExpiry.erase (deadline, c) } :=
      .of_same { Still.refl s with } rfl
    split
    · exact hlist.trans (keeps_expireSessions now rounds _ _)
    · next t hfind =>
        exact (hlist.trans (keeps_expireSession now (find_eq_some.1 hfind).1 _)).trans
          (keeps_expireSessions now rounds _ _)

theorem keeps_expire (now : Int) : Keeps cfg [] s (s.expire now) :=
  (keeps_expireMessages now _ _ s).trans (keeps_expireSessions now _ _ _)

/-! ## Fetch and heartbeats -/

theorem keeps_fetchLoop (now : Int) (c : Str) (limit : Nat) : ∀ entries f,
      Keeps cfg [] f.store (fetchLoop cfg now c limit entries f).store
  | [], f => .refl f.store
  | (id, entry) :: rest, f => by
    have hdrop : Keeps cfg [] f.store ({ f with store := f.store.drop c id } : FetchState).store :=
      keeps_drop c id
    have hreserve : ∀ n, Keeps cfg [] f.store (f.reserve n).store := fun n =>
      .of_same { Still.refl f.store with } rfl
    have hdeliver : ∀ n m packet,
        Keeps cfg [] f.store ((f.reserve n).deliver m entry packet).store :=
      fun n _ _ => hreserve n
    rw [fetchLoop]
    dsimp only
    split
    · exact .refl _
    split
    · exact .refl _
    split
    · exact hdrop.trans (keeps_fetchLoop now c limit rest _)
    split
    · split <;> exact .refl _
    · split
      · exact hreserve _
      · split
        · exact hdeliver _ _ _
        · exact (hdeliver _ _ _).trans (keeps_fetchLoop now c limit rest _)

end Store

end Mqtts.Durable

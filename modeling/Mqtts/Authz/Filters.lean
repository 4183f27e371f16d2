import Mqtts.Topic.Levels

/-!
# Filters that cover filters

A permission names a topic filter, and a request names a topic or, for a subscription, a filter of
its own. The request is granted when the permission's filter covers it: every topic that the request
can reach is one that the permission names. The policy module and the broker decide this each on its
own, and both walk the levels of the permission.
-/

namespace Mqtts.Authz

/-! ## Valid filters -/

/-- The bytes that follow a first byte of UTF-8: their number, and the range of the first of them
(the tables of the Go standard library). -/
def utf8Follow (b : UInt8) : Option (Nat × UInt8 × UInt8) :=
  if b < 0x80 then some (0, 0x80, 0xbf)
  else if b < 0xc2 then none
  else if b ≤ 0xdf then some (1, 0x80, 0xbf)
  else if b = 0xe0 then some (2, 0xa0, 0xbf)
  else if b = 0xed then some (2, 0x80, 0x9f)
  else if b ≤ 0xef then some (2, 0x80, 0xbf)
  else if b = 0xf0 then some (3, 0x90, 0xbf)
  else if b ≤ 0xf3 then some (3, 0x80, 0xbf)
  else if b = 0xf4 then some (3, 0x80, 0x8f)
  else none

/-- The loop of `utf8.ValidString`; every round takes a byte at least. -/
def validUtf8Rounds : Nat → Str → Bool
  | _, [] => true
  | 0, _ :: _ => false
  | rounds + 1, b :: rest =>
    match utf8Follow b with
    | none => false
    | some (count, low, high) =>
      let tail := rest.take count
      tail.length == count && tail.head?.all (fun c => low ≤ c && c ≤ high) &&
        tail.tail.all (fun c => 0x80 ≤ c && c ≤ 0xbf) && validUtf8Rounds rounds (rest.drop count)

variable (value : Str)

/-- `utf8.ValidString`. -/
def validUtf8 : Bool := validUtf8Rounds value.length value

def wild (level : Str) : Bool := level.contains 0x2b || level.contains 0x23

/-- The loop of `ValidTopic` over the levels. -/
def validParts (filter : Bool) : List Str → Bool
  | [] => true
  | part :: rest =>
    !(wild part && (!filter || (part != plusLevel && !(part == hashLevel && rest.isEmpty)))) &&
      validParts filter rest

/-- What the policy module checks of both filters first. -/
def validTopic (filter : Bool) : Bool :=
  !(value.isEmpty || decide (value.length > 4096) || !validUtf8 value || value.contains 0) &&
    validParts filter (topicLevels value)

/-- The filters that MQTT allows: UTF-8 without the null character, with wildcards that are
whole levels, and `#` at the end only. -/
structure ValidFilter (filter : Str) : Prop where
  nonempty : filter ≠ []
  utf8 : validUtf8 filter
  noNull : filter.contains 0 = false
  wildcards : ∀ before after level,
    topicLevels filter = before ++ level :: after → wild level →
      level = plusLevel ∨ (level = hashLevel ∧ after = [])

open Bool

theorem validParts_iff : ∀ levels, validParts true levels ↔
    ∀ before after level, levels = before ++ level :: after →
      wild level → level = plusLevel ∨ (level = hashLevel ∧ after = [])
  | [] => by
    constructor
    · intro _ before after level heq
      cases before <;> cases heq
    · intro _
      rfl
  | part :: rest => by
    have hpart : (!(wild part && (!true || (part != plusLevel &&
      !(part == hashLevel && rest.isEmpty))))) =
        true ↔ (wild part → part = plusLevel ∨ (part = hashLevel ∧ rest = [])) := by
      cases hwild : wild part
      · simp
      · by_cases hplus : part = plusLevel
        · simp [hplus]
        · by_cases hhash : part = hashLevel <;> simp [hplus, hhash]
    rw [validParts, and_eq_true, hpart, validParts_iff rest]
    constructor
    · rintro ⟨hfirst, hrest⟩ before after level heq hwild
      cases before with
      | nil =>
        cases heq
        exact hfirst hwild
      | cons p before =>
        cases heq
        exact hrest _ _ _ rfl hwild
    · intro hall
      refine ⟨fun hwild => hall [] rest part rfl hwild, fun before after level heq hwild => ?_⟩
      exact hall (part :: before) after level (by rw [heq]; rfl) hwild

theorem validTopic_iff : validTopic value true ↔ ValidFilter value ∧ value.length ≤ 4096 := by
  have hwild := validParts_iff (topicLevels value)
  constructor
  · intro h
    simp only [validTopic, and_eq_true, not_eq_true', or_eq_false_iff,
      decide_eq_false_iff_not, Nat.not_lt, not_eq_false'] at h
    obtain ⟨⟨⟨⟨hne, hlength⟩, hutf8⟩, hnull⟩, hparts⟩ := h
    exact ⟨⟨by simpa using hne, hutf8, hnull, hwild.1 hparts⟩, hlength⟩
  · rintro ⟨⟨hne, hutf8, hnull, hlevels⟩, hlength⟩
    simp only [validTopic, and_eq_true, not_eq_true', or_eq_false_iff,
      decide_eq_false_iff_not, Nat.not_lt, not_eq_false']
    exact ⟨⟨⟨⟨by simpa using hne, hlength⟩, hutf8⟩, hnull⟩, hwild.2 hlevels⟩

/-! ## The two decisions -/

/-- The walk over the levels of a permission. -/
def coversLevels : List Str → List Str → Bool
  | [], r => r.isEmpty
  | part :: a, r =>
    if part = hashLevel then a.isEmpty
    else
      match r with
      | [] => false
      | x :: r =>
        if x = hashLevel then false
        else if part ≠ plusLevel ∧ part ≠ x then false
        else coversLevels a r

/-- The decision of the policy module. -/
def covers (allowed requested : Str) : Bool :=
  if !validTopic allowed true || !validTopic requested true then false
  else if requested.head? == some dollar && allowed.head? != some dollar then false
  else coversLevels (topicLevels allowed) (topicLevels requested)

/-- The loop of `split_topic_levels_local`; every round but the last takes a `/`. -/
def splitLocalRounds : Nat → Str → List Str
  | 0, _ => []
  | rounds + 1, rest =>
    let level := rest.takeWhile (· ≠ slash)
    match rest.dropWhile (· ≠ slash) with
    | [] => [level]
    | _ :: after => level :: splitLocalRounds rounds after

/-- The `AuthManager` cuts the two strings itself. -/
def splitTopicLevelsLocal : List Str := splitLocalRounds (value.length + 1) value

/-- The decision of the broker's `AuthManager`. -/
def matchTopicPatternLocal (topic pattern : Str) : Bool :=
  if topic.isEmpty || pattern.isEmpty then false
  else if topic.head? == some dollar && pattern.head? != some dollar then false
  else coversLevels (splitTopicLevelsLocal pattern) (splitTopicLevelsLocal topic)

theorem topicLevelsFrom_eq (current : Str) : ∀ topic, topicLevelsFrom current topic =
      match topic.dropWhile (· ≠ slash) with
      | [] => [current ++ topic.takeWhile (· ≠ slash)]
      | _ :: after => (current ++ topic.takeWhile (· ≠ slash)) :: topicLevelsFrom [] after
  | [] => by simp [topicLevelsFrom]
  | c :: cs => by
    by_cases hs : c = slash
    · subst hs
      simp [topicLevelsFrom]
    · rw [topicLevelsFrom, if_neg hs, topicLevelsFrom_eq (current ++ [c]) cs]
      simp [hs]

theorem splitLocalRounds_eq : ∀ rounds rest, rest.length < rounds →
    splitLocalRounds rounds rest = topicLevels rest
  | 0, _, h => absurd h (Nat.not_lt_zero _)
  | rounds + 1, rest, h => by
    rw [splitLocalRounds, topicLevels, topicLevelsFrom_eq]
    have hlength := (List.dropWhile_suffix (l := rest) fun c => decide (c ≠ slash)).length_le
    split
    · next hnil => simp only [List.nil_append]
    · next c after hcons =>
        rw [hcons, List.length_cons] at hlength
        simp only [List.nil_append]
        rw [splitLocalRounds_eq rounds after (by omega), topicLevels]

/-- The broker cuts a filter as MQTT does. -/
theorem splitTopicLevelsLocal_eq : splitTopicLevelsLocal value = topicLevels value :=
  splitLocalRounds_eq _ _ (Nat.lt_succ_self _)

/-! ## Containment -/

/-- What a covered filter matches is matched by the one that covers it. -/
theorem matchLevels_of_coversLevels : ∀ {a r t}, coversLevels a r →
    matchLevels r t → matchLevels a t
  | [], r, t, hcovers, hmatch => by
    have hnil : r = [] := List.isEmpty_iff.1 hcovers
    rw [hnil] at hmatch
    exact hmatch
  | part :: a, r, t, hcovers, hmatch => by
    unfold coversLevels at hcovers
    by_cases hhash : part = hashLevel
    · -- the permission ends with `#`
      rw [if_pos hhash] at hcovers
      have hnil : a = [] := List.isEmpty_iff.1 hcovers
      subst hhash hnil
      cases t with
      | nil | cons => rfl
    · rw [if_neg hhash] at hcovers
      cases r with
      | nil => cases hcovers
      | cons x r =>
        dsimp only at hcovers
        split_ifs at hcovers with hx hpart
        cases t with
        | nil =>
          rw [matchLevels_nil_right] at hmatch
          rcases hmatch with hnil | hsingle
          · cases hnil
          · exact absurd (List.cons.inj hsingle).1 hx
        | cons t ts =>
          rcases (matchLevels_cons_right _).1 hmatch with hsingle | ⟨f, fs, heq, hf, hrest⟩
          · exact absurd (List.cons.inj hsingle).1 hx
          cases heq
          refine (matchLevels_cons_right _).2 (.inr ⟨part, a, rfl, ?_,
            matchLevels_of_coversLevels hcovers hrest⟩)
          rcases not_and_or.1 hpart with hplus | hsame
          · exact .inl (not_not.1 hplus)
          · rw [not_not.1 hsame]
            exact hf

theorem filterMatches_of_coversLevels {a r t} (hcovers : coversLevels a r)
    (hdollar : systemTopic r → systemTopic a) (hmatch : filterMatches r t) : filterMatches a t := by
  rw [filterMatches, and_eq_true, not_eq_true'] at hmatch ⊢
  refine ⟨?_, matchLevels_of_coversLevels hcovers hmatch.2⟩
  rw [and_eq_false_iff] at hmatch ⊢
  by_cases hsystem : systemTopic t
  · -- the request names the first level of a system topic, so the permission does
    have hlead : leadingWildcard r = false :=
      hmatch.1.resolve_left (by rw [hsystem]; simp)
    cases t with
    | nil => cases hsystem
    | cons t ts =>
      rcases (matchLevels_cons_right _).1 hmatch.2 with hsingle | ⟨f, fs, rfl, hf, -⟩
      · rw [hsingle] at hlead
        cases hlead
      · have hfirst : f = t := by
          refine hf.resolve_left fun hplus => ?_
          rw [hplus] at hlead
          cases hlead
        have hallowed : systemTopic a := by
          refine hdollar ?_
          rw [hfirst]
          cases t with
          | nil => cases hsystem
          | cons c cs => exact hsystem
        right
        match a, hallowed with
        | (c :: cs) :: _, hc =>
          have hc : c = dollar := by simpa [systemTopic] using hc
          simp [leadingWildcard, plusLevel, hashLevel, hc, dollar]
  · exact .inl (not_eq_true _ ▸ hsystem)

variable {allowed requested : Str}

theorem mqttMatches_of_matchTopicPatternLocal {topic} (h : matchTopicPatternLocal requested allowed)
    (hmatch : mqttMatches requested topic) : mqttMatches allowed topic := by
  rw [matchTopicPatternLocal] at h
  split at h
  · cases h
  split_ifs at h with hdollar
  rw [splitTopicLevelsLocal_eq, splitTopicLevelsLocal_eq] at h
  refine filterMatches_of_coversLevels h (fun hsystem => ?_) hmatch
  rw [systemTopic_topicLevels] at hsystem ⊢
  simpa [hsystem] using hdollar

/-- On filters that it accepts, the policy module decides as the broker does. -/
theorem covers_eq (ha : validTopic allowed true) (hr : validTopic requested true) :
    covers allowed requested = matchTopicPatternLocal requested allowed := by
  have hne : ∀ {value : Str}, validTopic value true → value.isEmpty = false := fun hvalid => by
    have hnonempty := ((validTopic_iff _).1 hvalid).1.nonempty
    simpa using hnonempty
  rw [covers, matchTopicPatternLocal, ha, hr, hne ha, hne hr, splitTopicLevelsLocal_eq,
    splitTopicLevelsLocal_eq]
  rfl

theorem covers_valid (h : covers allowed requested) :
    validTopic allowed true ∧ validTopic requested true := by
  rw [covers] at h
  split at h
  · cases h
  · next hvalid => simpa using hvalid

/-- Whatever the policy module or the broker grants reaches no topic outside the permission, and
the two agree on the valid filters of at most 4096 bytes. -/
theorem grant_contained (allowed requested : Str) (ha : ValidFilter allowed)
    (hr : ValidFilter requested) :
    (covers allowed requested ∨ matchTopicPatternLocal requested allowed →
      ∀ topic, mqttMatches requested topic → mqttMatches allowed topic) ∧
    (allowed.length ≤ 4096 → requested.length ≤ 4096 →
      covers allowed requested = matchTopicPatternLocal requested allowed) := by
  refine ⟨fun hgrant topic hmatch => ?_, fun hallowed hrequested => ?_⟩
  · have hlocal : matchTopicPatternLocal requested allowed := by
      rcases hgrant with hcovers | hlocal
      · obtain ⟨hva, hvr⟩ := covers_valid hcovers
        rw [← covers_eq hva hvr]
        exact hcovers
      · exact hlocal
    exact mqttMatches_of_matchTopicPatternLocal hlocal hmatch
  · exact covers_eq ((validTopic_iff _).2 ⟨ha, hallowed⟩) ((validTopic_iff _).2 ⟨hr, hrequested⟩)

/-- The permission `a/#` covers the request `a/+`, and with it the topic `a/b`. -/
theorem grant_contained_sample : covers [0x61, 0x2f, 0x23] [0x61, 0x2f, 0x2b] ∧
      mqttMatches [0x61, 0x2f, 0x2b] [0x61, 0x2f, 0x62] ∧
      mqttMatches [0x61, 0x2f, 0x23] [0x61, 0x2f, 0x62] := by
  have hcovers : covers [0x61, 0x2f, 0x23] [0x61, 0x2f, 0x2b] := by decide
  have hmatch : mqttMatches [0x61, 0x2f, 0x2b] [0x61, 0x2f, 0x62] := by decide
  exact ⟨hcovers, hmatch, (grant_contained _ _ ((validTopic_iff _).1 (covers_valid hcovers).1).1
      ((validTopic_iff _).1 (covers_valid hcovers).2).1).1 (.inl hcovers) _ hmatch⟩

end Mqtts.Authz

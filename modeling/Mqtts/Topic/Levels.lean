import Mathlib.Algebra.Ring.Int.Defs
import Mathlib.Algebra.Ring.Nat
import Mathlib.Data.List.Basic

/-!
# Topic names, topic filters and their levels

Strings of the broker (`std::string`, `MQTTString`) are byte strings. A topic is cut into levels at
every `/`, and a filter matches a topic level by level. `topicLevels` is the cut of the MQTT rules
and `splitLevels` the one of the topic tree; everything that is said about matching takes the levels
as given.
-/

namespace Mqtts

open List

/-- A byte string: `std::string` and `MQTTString` alike. -/
abbrev Str := List UInt8

instance byteLawfulBEq : LawfulBEq UInt8 := instLawfulBEq

def slash : UInt8 := 0x2f

def plusLevel : Str := [0x2b]

def hashLevel : Str := [0x23]

def dollar : UInt8 := 0x24

/-! ## Cutting a topic into levels -/

/-- The levels of a topic under the MQTT rules; `current` holds the bytes read
since the last separator. -/
def topicLevelsFrom (current : Str) : Str → List Str
  | [] => [current]
  | c :: cs =>
    if c = slash then current :: topicLevelsFrom [] cs
    else topicLevelsFrom (current ++ [c]) cs

variable (topic : Str)

/-- The levels of a topic or filter under the MQTT rules: cut at every `/`, empty
levels included. -/
def topicLevels : List Str := topicLevelsFrom [] topic

/-- The loop of `split_topic_levels`: a level is pushed at each `/`, and the rest
is pushed at the end only if it is not empty. -/
def splitLevelsFrom (current : Str) : Str → List Str
  | [] => if current = [] then [] else [current]
  | c :: cs =>
    if c = slash then current :: splitLevelsFrom [] cs
    else splitLevelsFrom (current ++ [c]) cs

/-- The loop pushes a level at each `/`, and what remains at the end only when something remains. -/
def splitLevels : List Str := splitLevelsFrom [] topic

theorem splitLevelsFrom_ne_nil :
    ∀ {topic current : Str}, current ≠ [] ∨ topic ≠ [] → splitLevelsFrom current topic ≠ []
  | [], current, h => by
    have hc : current ≠ [] := by simpa using h
    simp [splitLevelsFrom, hc]
  | c :: cs, current, _ => by
    by_cases hs : c = slash
    · simp [splitLevelsFrom, hs]
    · simp only [splitLevelsFrom, hs, if_false]
      exact splitLevelsFrom_ne_nil (.inl (by simp))

theorem splitLevels_ne_nil {topic : Str} (h : topic ≠ []) : splitLevels topic ≠ [] :=
  splitLevelsFrom_ne_nil (.inr h)

theorem topicLevelsFrom_ne_nil : ∀ topic current, topicLevelsFrom current topic ≠ []
  | [], _ => by simp [topicLevelsFrom]
  | c :: cs, current => by
    by_cases hs : c = slash
    · simp [topicLevelsFrom, hs]
    · rw [topicLevelsFrom, if_neg hs]
      exact topicLevelsFrom_ne_nil cs _

theorem mem_of_mem_topicLevelsFrom {b} :
    ∀ {topic current l}, l ∈ topicLevelsFrom current topic → b ∈ l → b ∈ current ∨ b ∈ topic
  | [], current, l, hl, hb => by
    rw [topicLevelsFrom, mem_singleton] at hl
    exact .inl (hl ▸ hb)
  | c :: cs, current, l, hl, hb => by
    by_cases hs : c = slash
    · rw [topicLevelsFrom, if_pos hs, mem_cons] at hl
      rcases hl with rfl | hl
      · exact .inl hb
      · rcases mem_of_mem_topicLevelsFrom hl hb with h | h
        · simp at h
        · exact .inr (mem_cons_of_mem _ h)
    · rw [topicLevelsFrom, if_neg hs] at hl
      rcases mem_of_mem_topicLevelsFrom hl hb with h | h
      · rcases mem_append.1 h with h | h
        · exact .inl h
        · rw [mem_singleton] at h
          subst h
          exact .inr mem_cons_self
      · exact .inr (mem_cons_of_mem _ h)

def TopicName : Prop := ∀ b ∈ topic, b ≠ 0x2b ∧ b ≠ 0x23

theorem TopicName.levels {topic} (h : TopicName topic) :
    ∀ l ∈ topicLevels topic, l ≠ plusLevel ∧ l ≠ hashLevel := by
  intro l hl
  have hbytes : ∀ b ∈ l, b ≠ 0x2b ∧ b ≠ 0x23 := by
    intro b hb
    rcases mem_of_mem_topicLevelsFrom hl hb with hmem | hmem
    · simp at hmem
    · exact h b hmem
  constructor <;> rintro rfl
  · exact (hbytes 0x2b (by simp [plusLevel])).1 rfl
  · exact (hbytes 0x23 (by simp [hashLevel])).2 rfl

def joinLevels : List Str → Str
  | [] => []
  | [l] => l
  | l :: l' :: ls => l ++ slash :: joinLevels (l' :: ls)

theorem joinLevels_cons {ls} (h : ls ≠ []) (l : Str) :
    joinLevels (l :: ls) = l ++ slash :: joinLevels ls := by
  cases ls with
  | nil => exact absurd rfl h
  | cons l' ls => rfl

theorem joinLevels_topicLevelsFrom (current : Str) :
    joinLevels (topicLevelsFrom current topic) = current ++ topic := by
  induction topic generalizing current with
  | nil => simp [topicLevelsFrom, joinLevels]
  | cons c cs ih =>
    by_cases hs : c = slash
    · rw [topicLevelsFrom, if_pos hs, joinLevels_cons (topicLevelsFrom_ne_nil cs []), ih, hs]
      rfl
    · rw [topicLevelsFrom, if_neg hs, ih, append_assoc]
      rfl

theorem topicLevels_injective {t t'} (h : topicLevels t = topicLevels t') : t = t' := by
  have ht := joinLevels_topicLevelsFrom t []
  have ht' := joinLevels_topicLevelsFrom t' []
  rw [nil_append] at ht ht'
  rw [← ht, ← ht']
  exact congrArg joinLevels h

/-! ## A trailing separator

The two cuts differ in one way only: `splitLevels` does not see a `/` at the end. -/

/-- The string without the `/` it ends in, if it ends in one. -/
def trimSlash : Str → Str
  | [] => []
  | [c] => if c = slash then [] else [c]
  | c :: d :: cs => c :: trimSlash (d :: cs)

theorem splitLevelsFrom_eq : ∀ (topic current : Str), topic ≠ [] →
    splitLevelsFrom current topic = topicLevelsFrom current (trimSlash topic)
  | [c], current, _ => by
    by_cases hs : c = slash <;> simp [splitLevelsFrom, topicLevelsFrom, trimSlash, hs]
  | c :: d :: cs, current, _ => by
    rw [splitLevelsFrom, trimSlash, topicLevelsFrom, splitLevelsFrom_eq (d :: cs) [] (by simp),
      splitLevelsFrom_eq (d :: cs) (current ++ [c]) (by simp)]

/-- It is the cut of the string without a `/` at its end. -/
theorem splitLevels_eq {topic : Str} (h : topic ≠ []) :
    splitLevels topic = topicLevels (trimSlash topic) :=
  splitLevelsFrom_eq topic [] h

theorem splitLevels_eq_iff {f g : Str} (hf : f ≠ []) (hg : g ≠ []) :
    splitLevels f = splitLevels g ↔ trimSlash f = trimSlash g := by
  rw [splitLevels_eq hf, splitLevels_eq hg]
  exact ⟨topicLevels_injective, fun h => by rw [h]⟩

theorem trimSlash_of_unslashed : ∀ {s : Str}, s.getLast? ≠ some slash → trimSlash s = s
  | [], _ => rfl
  | [c], h => by
    have hc : c ≠ slash := by simpa using h
    simp [trimSlash, hc]
  | c :: d :: cs, h => by
    rw [getLast?_cons_cons] at h
    rw [trimSlash, trimSlash_of_unslashed h]

/-! ## Matching levels

`matchLevels` is the level-by-level rule, `filterMatches` adds the rule for system
topics: a filter that starts with a wildcard does not match a topic whose first
level starts with `$`. -/

/-- Level-by-level matching: `+` stands for one level, a final `#` for any number of
further levels, none included. -/
def matchLevels : List Str → List Str → Bool
  | [], [] => true
  | [], _ :: _ => false
  | f :: fs, [] => f == hashLevel && fs.isEmpty
  | f :: fs, t :: ts =>
    (f == hashLevel && fs.isEmpty) || ((f == plusLevel || f == t) && matchLevels fs ts)

def systemTopic : List Str → Bool
  | (c :: _) :: _ => c == dollar
  | _ => false

theorem systemTopic_topicLevelsFrom : ∀ (topic : Str) (c : UInt8) (current : Str),
      systemTopic (topicLevelsFrom (c :: current) topic) = (c == dollar)
  | [], _, _ => rfl
  | b :: bs, c, current => by
    rw [topicLevelsFrom]
    split
    · rfl
    · exact systemTopic_topicLevelsFrom bs c _

theorem systemTopic_topicLevels :
    systemTopic (topicLevels topic) = (topic.head? == some dollar) := by
  cases topic with
  | nil => rfl
  | cons c cs =>
    rw [topicLevels, topicLevelsFrom]
    split
    · rename_i hs
      subst hs
      rfl
    · rw [nil_append, systemTopic_topicLevelsFrom]
      rfl

def leadingWildcard : List Str → Bool
  | f :: _ => f == plusLevel || f == hashLevel
  | [] => false

def filterMatches (filter topic : List Str) : Bool :=
  !(systemTopic topic && leadingWildcard filter) && matchLevels filter topic

/-- The filter `filter` matches the topic name `topic` under the MQTT rules. -/
def mqttMatches (filter topic : Str) : Bool :=
  filterMatches (topicLevels filter) (topicLevels topic)

/-- The verdict of the topic tree, which cuts both strings with `splitLevels`. -/
def treeMatches (filter topic : Str) : Bool :=
  filterMatches (splitLevels filter) (splitLevels topic)

theorem treeMatches_eq {filter topic : Str} (hf : filter ≠ []) (ht : topic ≠ []) :
    treeMatches filter topic = mqttMatches (trimSlash filter) (trimSlash topic) := by
  rw [treeMatches, splitLevels_eq hf, splitLevels_eq ht]
  rfl

@[simp] theorem matchLevels_nil_right (filter : List Str) :
    matchLevels filter [] ↔ filter = [] ∨ filter = [hashLevel] := by
  cases filter with
  | nil | cons => simp [matchLevels]

theorem matchLevels_cons_right {t ts} (filter : List Str) :
    matchLevels filter (t :: ts) ↔ filter = [hashLevel] ∨
        ∃ f fs, filter = f :: fs ∧ (f = plusLevel ∨ f = t) ∧ matchLevels fs ts := by
  cases filter with
  | nil | cons => simp [matchLevels]

end Mqtts

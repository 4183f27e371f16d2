import Mqtts.Topic.Levels

/-!
# WebSocket messages in fragments

`handle_frame` of the WebSocket protocol handler puts the frames of a message together before the
bridge gets it. The frames are those that `parse_frame` has unmasked; of its checks only the one of
the text matters here, and it looks at a text of one frame only.
-/

namespace Mqtts.WebSocket

open List

inductive Opcode where
  | continuation
  | text
  | binary
  | close
  | ping
  | pong
  deriving DecidableEq

def Opcode.isControl : Opcode → Bool
  | close | ping | pong => true
  | _ => false

/-- A frame that `parse_frame` has read, without what only its header needs. -/
structure ParsedFrame where
  fin : Bool
  opcode : Opcode
  payload : Str
  deriving DecidableEq

/-! ## UTF-8 -/

def isContinuation (byte : UInt8) : Bool := byte &&& 0xC0 = 0x80

/-- `WebSocketFrameParser::is_valid_utf8`. It bounds the first of four bytes by 0xF4, but not the
byte after 0xF4. -/
def isValidUtf8 : Str → Bool
  | [] => true
  | a :: rest =>
    if a ≤ 0x7F then isValidUtf8 rest
    else if a &&& 0xE0 = 0xC0 then
      match rest with
      | b :: rest => isContinuation b && 0xC2 ≤ a && isValidUtf8 rest
      | _ => false
    else if a &&& 0xF0 = 0xE0 then
      match rest with
      | b :: c :: rest => isContinuation b && isContinuation c && !(a == 0xE0 && b < 0xA0) &&
        !(a == 0xED && 0xA0 ≤ b) && isValidUtf8 rest
      | _ => false
    else if a &&& 0xF8 = 0xF0 then
      match rest with
      | b :: c :: d :: rest => isContinuation b && isContinuation c && isContinuation d &&
        !(a == 0xF0 && b < 0x90) && a < 0xF5 && isValidUtf8 rest
      | _ => false
    else false

abbrev WellFormed (s : Str) : Prop := s.toByteArray.IsValidUTF8

/-! ## The handler -/

inductive Outcome where
  | badText
  | refused
  | tooLarge
  | kept
  | text (message : Str)
  | binary (message : Str)
  | control
  deriving DecidableEq

/-- `is_fragmenting_`, `fragmented_opcode_` and `fragmented_payload_`. -/
structure Assembly where
  fragmenting : Bool := false
  opcode : Opcode := .text
  payload : Str := []

def Assembly.clear (x : Assembly) : Assembly := { x with fragmenting := false, payload := [] }

/-- `reject_oversized_mqtt_fragment`; a limit of zero is none. -/
def Assembly.oversized (x : Assembly) (limit incoming : Nat) : Bool :=
  limit ≠ 0 ∧ limit < (if x.fragmenting then x.payload.length else 0) + incoming

def pass (opcode : Opcode) (message : Str) : Outcome :=
  if opcode = .text then .text message else .binary message

/-- `handle_text_frame` and `handle_binary_frame`, which differ in the call of the bridge. -/
def handleDataFrame (limit : Nat) (x : Assembly) (f : ParsedFrame) : Outcome × Assembly :=
  if f.fin then (pass f.opcode f.payload, x)
  else if x.fragmenting then (.refused, x)
  else if x.oversized limit f.payload.length then (.tooLarge, x.clear)
  else (.kept, ⟨true, f.opcode, f.payload⟩)

def handleFrame (limit : Nat) (x : Assembly) (f : ParsedFrame) : Outcome × Assembly :=
  if f.opcode.isControl then (.control, x)
  else if f.opcode ≠ .continuation then handleDataFrame limit x f
  else if !x.fragmenting then (.refused, x)
  else if x.oversized limit f.payload.length then (.tooLarge, x.clear)
  else if f.fin then (pass x.opcode (x.payload ++ f.payload), x.clear)
  else (.kept, { x with payload := x.payload ++ f.payload })

/-- The check of `parse_payload`. -/
def ParsedFrame.badText (f : ParsedFrame) : Bool :=
  f.opcode = .text ∧ f.fin ∧ !isValidUtf8 f.payload

def receive (limit : Nat) (x : Assembly) (f : ParsedFrame) : Outcome × Assembly :=
  if f.badText then (.badText, x) else handleFrame limit x f

structure Session where
  handler : Assembly := {}
  frames : List ParsedFrame := []

def Session.step (limit : Nat) (s : Session) (f : ParsedFrame) : Session where
  handler := (receive limit s.handler f).2
  frames := match (receive limit s.handler f).1 with
    | .kept => s.frames ++ [f]
    | .tooLarge => []
    | .text _ | .binary _ => if f.opcode = .continuation then [] else s.frames
    | _ => s.frames

def run (limit : Nat) (frames : List ParsedFrame) : Session :=
  frames.foldl (Session.step limit) {}

/-! ## The rules -/

def concat (frames : List ParsedFrame) : Str := frames.flatMap ParsedFrame.payload

def IsMessage : List ParsedFrame → Prop
  | [] => False
  | f :: rest => (f.opcode = .text ∨ f.opcode = .binary) ∧ ∀ g ∈ rest, g.opcode = .continuation

structure Obeys (limit : Nat) (s : Session) (f : ParsedFrame) : Prop where
  interleaved : f.opcode = .text ∨ f.opcode = .binary → s.frames ≠ [] →
    (receive limit s.handler f).1 ∈ [.badText, .refused, .tooLarge]
  orphan : f.opcode = .continuation → s.frames = [] → (receive limit s.handler f).1 = .refused
  control : f.opcode.isControl → (receive limit s.handler f).2 = s.handler
  whole : ∀ m, (receive limit s.handler f).1 ∈ [.text m, .binary m] →
    ∃ frames, IsMessage frames ∧ m = concat frames ∧
      frames = if f.opcode = .continuation then s.frames ++ [f] else [f]
  text : ∀ m, (receive limit s.handler f).1 = .text m → WellFormed m
  split : f.opcode = .continuation ∨ f.fin = false → (receive limit s.handler f).1 ≠ .badText

/-- No message of one frame comes while another is open, and the texts are well formed. -/
def Clean (limit : Nat) (s : Session) (f : ParsedFrame) : Prop :=
  f.fin → f.badText = false →
    (f.opcode = .text ∨ f.opcode = .binary → s.frames = []) ∧
    (f.opcode = .text → WellFormed f.payload) ∧
    (f.opcode = .continuation → (limit = 0 ∨ (concat (s.frames ++ [f])).length ≤ limit) →
      ∀ g ∈ s.frames.head?, g.opcode = .text → WellFormed (concat (s.frames ++ [f])))

/-! ## What the handler holds -/

structure Session.Carries (s : Session) : Prop where
  fragmenting : s.handler.fragmenting ↔ s.frames ≠ []
  opcode : ∀ f ∈ s.frames.head?, f.opcode = s.handler.opcode
  payload : s.handler.payload = concat s.frames
  message : s.frames ≠ [] → IsMessage s.frames

theorem Opcode.cases (opcode : Opcode) :
    opcode.isControl ∧ opcode ≠ .text ∧ opcode ≠ .binary ∧ opcode ≠ .continuation ∨
    opcode.isControl = false ∧ (opcode = .text ∨ opcode = .binary) ∧ opcode ≠ .continuation ∨
    opcode.isControl = false ∧ opcode = .continuation ∧ opcode ≠ .text ∧ opcode ≠ .binary := by
  cases opcode <;> simp [isControl]

/-! ## One frame -/

section

variable (limit : Nat) (x : Assembly) {f : ParsedFrame}

theorem receive_control (h : f.opcode.isControl) : receive limit x f = (.control, x) := by
  have htext : ¬ f.badText := by
    cases hf : f.opcode <;> simp_all [ParsedFrame.badText, Opcode.isControl]
  rw [receive, if_neg htext, handleFrame, if_pos h]

theorem receive_start (h : f.opcode = .text ∨ f.opcode = .binary) (htext : f.badText = false) :
    receive limit x f = handleDataFrame limit x f := by
  rcases h with h | h <;> simp [receive, htext, handleFrame, h, Opcode.isControl]

theorem receive_continuation (h : f.opcode = .continuation) : receive limit x f =
    if !x.fragmenting then (.refused, x)
    else if x.oversized limit f.payload.length then (.tooLarge, x.clear)
    else if f.fin then (pass x.opcode (x.payload ++ f.payload), x.clear)
    else (.kept, { x with payload := x.payload ++ f.payload }) := by
  simp [receive, handleFrame, ParsedFrame.badText, h, Opcode.isControl]

end

/-! ## Frames that come in -/

theorem carries_cleared (x : Assembly) : Session.Carries ⟨x.clear, []⟩ := by
  constructor <;> simp [Assembly.clear, concat]

theorem carries_first {f : ParsedFrame} (h : f.opcode = .text ∨ f.opcode = .binary) :
    Session.Carries ⟨⟨true, f.opcode, f.payload⟩, [f]⟩ := by
  constructor <;> simp [concat, IsMessage, h]

variable {s : Session} {f : ParsedFrame}

theorem IsMessage.concat_continuation {frames} (h : IsMessage frames)
    (hf : f.opcode = .continuation) : IsMessage (frames ++ [f]) := by
  cases frames with
  | nil => exact h.elim
  | cons first rest =>
    refine ⟨h.1, fun g hg => ?_⟩
    rcases mem_append.1 hg with hg | hg
    · exact h.2 g hg
    · rw [mem_singleton.1 hg, hf]

theorem Session.Carries.continued (h : s.Carries) (hopen : s.handler.fragmenting)
    (hf : f.opcode = .continuation) : Session.Carries
      ⟨{ s.handler with payload := s.handler.payload ++ f.payload }, s.frames ++ [f]⟩ := by
  have hne := h.fragmenting.1 hopen
  constructor
  · simp [hopen]
  · rw [head?_append_of_ne_nil _ hne]
    exact h.opcode
  · simp [h.payload, concat]
  · exact fun _ => (h.message hne).concat_continuation hf

/-- Where the handler stays as it is and the message that is open is not ended. -/
theorem Session.Carries.unchanged (h : s.Carries) {limit outcome}
    (hr : receive limit s.handler f = (outcome, s.handler))
    (hout : outcome ∈ [.badText, .refused, .control] ∨
      f.opcode ≠ .continuation ∧ ∃ m, outcome = .text m ∨ outcome = .binary m) :
    (s.step limit f).Carries := by
  have hstep : s.step limit f = s := by
    rw [Session.step, hr]
    rcases hout with hout | ⟨hne, m, rfl | rfl⟩
    · simp only [mem_cons, not_mem_nil, or_false] at hout
      rcases hout with rfl | rfl | rfl <;> rfl
    · simp [hne]
    · simp [hne]
  rwa [hstep]

theorem pass_cases (opcode : Opcode) (m : Str) :
    ∃ m', pass opcode m = .text m' ∨ pass opcode m = .binary m' := by
  by_cases h : opcode = .text
  · exact ⟨m, .inl (if_pos h)⟩
  · exact ⟨m, .inr (if_neg h)⟩

/-- What one frame does to an open message: it leaves it, ends it, begins it or continues it. -/
theorem Session.Carries.step (h : s.Carries) (limit f) : (s.step limit f).Carries := by
  rcases f.opcode.cases with hcontrol | hstart | hcontinues
  · exact h.unchanged (receive_control limit s.handler hcontrol.1) (.inl (by simp))
  · cases htext : f.badText with
    | true => exact h.unchanged (if_pos htext) (.inl (by simp))
    | false =>
      have hr := receive_start limit s.handler hstart.2.1 htext
      rw [handleDataFrame] at hr
      split_ifs at hr with hfin hopen hover
      · exact h.unchanged hr (.inr ⟨hstart.2.2, pass_cases _ _⟩)
      · exact h.unchanged hr (.inl (by simp))
      · rw [Session.step, hr]
        exact carries_cleared s.handler
      · have hnil : s.frames = [] := by
          by_contra hne
          exact hopen (h.fragmenting.2 hne)
        rw [Session.step, hr, hnil]
        exact carries_first hstart.2.1
  · have hr := receive_continuation limit s.handler hcontinues.2.1
    split_ifs at hr with hclosed hover hfin
    · exact h.unchanged hr (.inl (by simp))
    · rw [Session.step, hr]
      exact carries_cleared s.handler
    · obtain ⟨m, hpass | hpass⟩ := pass_cases s.handler.opcode (s.handler.payload ++ f.payload)
      all_goals
        rw [Session.step, hr, hpass]
        simpa [hcontinues.2.1] using carries_cleared s.handler
    · rw [Session.step, hr]
      exact h.continued (by simpa using hclosed) hcontinues.2.1

/-- A session carries the frames of the open message beside the handler's own fields. -/
theorem carries_run (limit frames) : (run limit frames).Carries := by
  refine foldlRecOn (motive := Session.Carries) frames _ ?_ fun s h f _ => h.step limit f
  constructor <;> simp [concat]

/-! ## The rules for one frame -/

/-- A frame that is kept or refused breaks no rule, if it is kept in its place. -/
theorem obeys_of_silent {limit} (hcontrol : f.opcode.isControl = false)
    (hout : (receive limit s.handler f).1 ∈ [.refused, .tooLarge, .kept])
    (hfirst : f.opcode = .text ∨ f.opcode = .binary → s.frames ≠ [] →
      (receive limit s.handler f).1 ≠ .kept)
    (horphan : f.opcode = .continuation → s.frames = [] →
      (receive limit s.handler f).1 = .refused) :
    Obeys limit s f := by
  generalize hr : (receive limit s.handler f).1 = outcome at hout hfirst horphan
  simp only [mem_cons, not_mem_nil, or_false] at hout
  refine ⟨?_, hr ▸ horphan, fun h => absurd h (by simp [hcontrol]), ?_, ?_, ?_⟩ <;> rw [hr]
  · intro h hopen
    rcases hout with rfl | rfl | rfl
    · simp
    · simp
    · exact absurd rfl (hfirst h hopen)
  · rcases hout with rfl | rfl | rfl <;> simp
  · rcases hout with rfl | rfl | rfl <;> simp
  · rcases hout with rfl | rfl | rfl <;> simp

/-- A text or a binary frame that passes the check of the parser. -/
theorem Session.Carries.obeys_start (hs : s.Carries) {limit}
    (h : f.opcode = .text ∨ f.opcode = .binary) (htext : f.badText = false) :
    Obeys limit s f ↔ Clean limit s f := by
  have hr := receive_start limit s.handler h htext
  have hne : f.opcode ≠ .continuation := by rcases h with h | h <;> simp [h]
  have hcontrol : f.opcode.isControl = false := by
    rcases h with h | h <;> simp [h, Opcode.isControl]
  rw [handleDataFrame] at hr
  cases hfin : f.fin with
  | true =>
    -- the message is passed on, whatever is open
    rw [hfin, if_pos rfl, pass] at hr
    constructor
    · refine fun ho _ _ => ⟨fun _ => ?_, fun ht => ho.text _ ?_, fun hc => absurd hc hne⟩
      · by_contra hopen
        have hrefused := ho.interleaved h hopen
        rw [hr] at hrefused
        split_ifs at hrefused <;> simp at hrefused
      · rw [hr, if_pos ht]
    · intro hclean
      obtain ⟨hnil, htexts, -⟩ := hclean hfin htext
      constructor <;> rw [hr]
      · exact fun _ hopen => absurd (hnil h) hopen
      · exact fun hc => absurd hc hne
      · exact fun _ => rfl
      · intro m hm
        have hpayload : m = f.payload := by
          split_ifs at hm <;> simpa [eq_comm] using hm
        exact ⟨[f], ⟨h, by simp⟩, by simp [concat, hpayload], (if_neg hne).symm⟩
      · intro m hm
        split_ifs at hm with ht
        cases hm
        exact htexts ht
      · rintro (hc | hc)
        · exact absurd hc hne
        · rw [hfin] at hc
          cases hc
  | false =>
    refine iff_of_true ?_ (fun hfin' => by simp [hfin] at hfin')
    rw [hfin, if_neg Bool.false_ne_true] at hr
    by_cases hopen : s.handler.fragmenting
    · rw [if_pos hopen] at hr
      exact obeys_of_silent hcontrol (by simp [hr]) (by simp [hr]) fun hc => absurd hc hne
    · rw [if_neg hopen] at hr
      refine obeys_of_silent hcontrol ?_ (fun _ hmore => ?_) fun hc => absurd hc hne
      · rw [hr]
        split_ifs <;> simp
      · exact absurd (hs.fragmenting.2 hmore) hopen

theorem Session.Carries.obeys_continuation (hs : s.Carries) {limit}
    (h : f.opcode = .continuation) : Obeys limit s f ↔ Clean limit s f := by
  have hr := receive_continuation limit s.handler h
  have hcontrol : f.opcode.isControl = false := by simp [h, Opcode.isControl]
  have hstart : ¬ (f.opcode = .text ∨ f.opcode = .binary) := by simp [h]
  have htext : f.badText = false := by simp [ParsedFrame.badText, h]
  have hconcat : concat (s.frames ++ [f]) = s.handler.payload ++ f.payload := by
    simp [concat, hs.payload]
  by_cases hopen : s.handler.fragmenting
  · have hmore := hs.fragmenting.1 hopen
    have horphan : s.frames = [] → (receive limit s.handler f).1 = .refused :=
      fun hnil => absurd hnil hmore
    rw [if_neg (by simp [hopen])] at hr
    by_cases hover : s.handler.oversized limit f.payload.length
    · rw [if_pos hover] at hr
      refine iff_of_true (obeys_of_silent hcontrol (by simp [hr]) (by simp [hr]) fun _ => horphan)
        fun _ _ => ⟨fun ht => absurd ht hstart, fun ht => absurd (.inl ht) hstart, ?_⟩
      intro _ hfits
      have hlong : limit ≠ 0 ∧ limit < s.handler.payload.length + f.payload.length := by
        simpa [Assembly.oversized, hopen] using hover
      rw [hconcat, length_append] at hfits
      omega
    · rw [if_neg hover] at hr
      cases hfin : f.fin with
      | true =>
        rw [hfin, if_pos rfl, ← hconcat, pass] at hr
        have hfits : limit = 0 ∨ (concat (s.frames ++ [f])).length ≤ limit := by
          have hshort : limit ≠ 0 → ¬ limit < s.handler.payload.length + f.payload.length := by
            simpa [Assembly.oversized, hopen] using hover
          rw [hconcat, length_append]
          omega
        constructor
        · refine fun ho _ _ => ⟨fun ht => absurd ht hstart, fun ht => absurd (.inl ht) hstart, ?_⟩
          intro _ _ g hg ht
          exact ho.text _ (by rw [hr, if_pos ((hs.opcode g hg).symm.trans ht)])
        · intro hclean
          have hwell := (hclean hfin htext).2.2 h hfits
          refine ⟨fun ht => absurd ht hstart, fun _ => horphan,
            fun hc => absurd hc (by simp [hcontrol]), ?_, ?_, ?_⟩ <;> rw [hr]
          · intro m hm
            have hm : m = concat (s.frames ++ [f]) := by
              split_ifs at hm <;> simpa [eq_comm] using hm
            exact ⟨_, (hs.message hmore).concat_continuation h, hm, (if_pos h).symm⟩
          · intro m hm
            split_ifs at hm with ht
            cases hm
            obtain ⟨g, hg⟩ : ∃ g, g ∈ s.frames.head? :=
              ⟨_, head?_eq_some_head hmore⟩
            exact hwell g hg ((hs.opcode g hg).trans ht)
          · split_ifs <;> simp
      | false =>
        rw [hfin, if_neg Bool.false_ne_true] at hr
        exact iff_of_true (obeys_of_silent hcontrol (by simp [hr])
          (fun ht => absurd ht hstart) fun _ => horphan) (fun hfin' => by simp [hfin] at hfin')
  · have hnil : s.frames = [] := by
      by_contra hne
      exact hopen (hs.fragmenting.2 hne)
    rw [if_pos (by simp [hopen])] at hr
    refine iff_of_true (obeys_of_silent hcontrol (by simp [hr]) (by simp [hr]) (by simp [hr]))
      fun _ _ => ⟨fun ht => absurd ht hstart, fun ht => absurd (.inl ht) hstart, ?_⟩
    rw [hnil]
    exact fun _ _ g hg => nomatch hg

theorem Session.Carries.obeys_iff (hs : s.Carries) (limit f) :
    Obeys limit s f ↔ Clean limit s f := by
  rcases f.opcode.cases with h | h | h
  · have hr := receive_control limit s.handler h.1
    refine iff_of_true ?_ fun _ _ => by simp [h]
    constructor <;> simp [h, hr]
  · cases htext : f.badText with
    | true =>
      have hr : receive limit s.handler f = (.badText, s.handler) := if_pos htext
      have hfin : f.fin := by simp_all [ParsedFrame.badText]
      refine iff_of_true ?_ fun _ hgood => by simp [htext] at hgood
      constructor <;> simp [h, hr, hfin]
    | false => exact hs.obeys_start h.2.1 htext
  · exact hs.obeys_continuation h.2.1

/-- After any frames, the rules hold for the next one exactly when it is clean. -/
theorem fragments_obey_iff (limit : Nat) (before : List ParsedFrame) (f : ParsedFrame) :
    Obeys limit (run limit before) f ↔ Clean limit (run limit before) f :=
  (carries_run limit before).obeys_iff limit f

/-- A text of one frame is passed on while another message is open, and a text in two fragments
is passed on that is not UTF-8. -/
theorem fragments_not_obeyed : (run 0 [⟨false, .text, [0xFF]⟩]).frames = [⟨false, .text, [0xFF]⟩] ∧
      (receive 0 (run 0 [⟨false, .text, [0xFF]⟩]).handler ⟨true, .text, []⟩).1 = .text [] ∧
      (receive 0 (run 0 [⟨false, .text, [0xFF]⟩]).handler ⟨true, .continuation, []⟩).1 =
        .text [0xFF] ∧ ¬ WellFormed [0xFF] := by
  decide

end Mqtts.WebSocket

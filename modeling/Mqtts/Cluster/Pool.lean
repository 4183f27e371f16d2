import Mathlib.Algebra.Order.Ring.Int
import Mathlib.Data.List.Chain

/-!
# Forwarding through pooled connections

`forward_publish` takes a connection from the pool, sends its request, waits for the response and
gives the connection back. The service on the other side answers one request on a connection and
closes it (`client_routine`), and the end of the stream does not clear the flag that the pool asks
for, so a connection that comes back is used again and never answered.
-/

namespace Mqtts.Forwarding

/-- A connection to the peer: the flag `connected_`, and whether the peer has answered on it and
closed it. -/
structure Conn where
  connected : Bool := true
  served : Bool := false

/-- The `RemotePool` of the peer, the connection given back last in front. -/
structure Pool where
  idle : List Conn := []
  inUse : Nat := 0
  maxSize : Nat

structure Response where
  errorCode : Int
  deliveredCount : Int
  deriving DecidableEq

structure Call where
  response : Response
  swept : Bool := false

structure Outcome where
  response : Option Response
  processed : Nat
  deriving DecidableEq

namespace Pool

variable (p : Pool)

def acquire : Conn × Bool × Pool :=
  match p.idle.dropWhile (!·.connected) with
  | s :: idle => (s, true, { p with idle := idle, inUse := p.inUse + 1 })
  | [] =>
    if p.inUse < p.maxSize then ({}, true, { p with idle := [], inUse := p.inUse + 1 })
    else ({}, false, { p with idle := [] })

def release (s : Conn) (isPooled hasError : Bool) : Pool :=
  if !isPooled || hasError then
    { p with inUse := if isPooled then p.inUse - 1 else p.inUse }
  else { p with idle := s :: p.idle, inUse := p.inUse - 1 }

/-- `forward_publish`, with `handle_client` on the other side. -/
def forwardPublish (c : Call) : Outcome × Pool :=
  let (s, isPooled, p) := { p with idle := if c.swept then [] else p.idle }.acquire
  if s.served then (⟨none, 0⟩, p.release s isPooled true)
  else
    (⟨some c.response, 1⟩,
      p.release { s with served := true } isPooled (c.response.errorCode ≠ 0))

def forwardAll : Pool → List Call → List Outcome
  | _, [] => []
  | p, c :: calls => (p.forwardPublish c).1 :: forwardAll (p.forwardPublish c).2 calls

def resting (maxSize : Nat) (used : Bool) : Pool :=
  { idle := if used then [{ served := true }] else [], maxSize := maxSize }

/-- One call on a pool at rest. -/
theorem forwardPublish_resting (maxSize : Nat) (used : Bool) (c : Call) :
    (resting maxSize used).forwardPublish c =
      if used ∧ ¬ c.swept then (⟨none, 0⟩, resting maxSize false)
      else
        (⟨some c.response, 1⟩, resting maxSize (maxSize ≠ 0 ∧ c.response.errorCode = 0)) := by
  cases used <;> cases hc : c.swept <;> cases maxSize <;> by_cases he : c.response.errorCode = 0 <;>
    simp [forwardPublish, resting, acquire, release, hc, he]

theorem forwardAll_resting (maxSize : Nat) : ∀ (calls : List Call) (used : Bool),
    (resting maxSize used).forwardAll calls = calls.map (fun c => ⟨some c.response, 1⟩) ↔
      (∀ c ∈ calls.head?, used → c.swept) ∧
        calls.IsChain fun c d => maxSize = 0 ∨ c.response.errorCode ≠ 0 ∨ d.swept
  | [], used => by simp [forwardAll]
  | c :: calls, used => by
    rw [forwardAll, forwardPublish_resting, List.map_cons, List.isChain_cons]
    split_ifs with hstale
    · simpa using fun h => absurd (h hstale.1) hstale.2
    · rw [List.cons.injEq, forwardAll_resting maxSize calls]
      simp only [decide_eq_true_eq, List.head?_cons, Option.mem_some_iff, forall_eq', true_and,
        not_and, not_not] at hstale ⊢
      rw [and_iff_right hstale]
      refine and_congr_left' (forall₂_congr fun d _ => ?_)
      tauto

/-- All of the calls are answered, each by the response to its own request, exactly if no call
follows a successful one before the cleanup. -/
theorem forwardAll_answered_iff (maxSize : Nat) (calls : List Call) :
    forwardAll { maxSize := maxSize } calls = calls.map (fun c => ⟨some c.response, 1⟩) ↔
      calls.IsChain (fun c d => maxSize = 0 ∨ c.response.errorCode ≠ 0 ∨ d.swept) :=
  (forwardAll_resting maxSize calls false).trans (and_iff_right (by simp))

/-- The second of two successful calls meets the closed connection. -/
theorem forwardAll_unanswered : forwardAll { maxSize := 4 } [{ response := ⟨0, 1⟩ },
    { response := ⟨0, 2⟩ }] = [⟨some ⟨0, 1⟩, 1⟩, ⟨none, 0⟩] := by
  decide

end Pool

end Mqtts.Forwarding

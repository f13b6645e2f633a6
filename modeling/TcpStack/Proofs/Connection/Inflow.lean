import TcpStack.Proofs.Connection.Ending

/-! What comes into the inbound stream of a connection. Only a segment puts bytes into it, behind those that
wait to be read, and once the stream has ended or the connection has failed nothing comes any more. -/

namespace TcpStack.Connection

open Outcome

variable {incoming : Option Segment} {c after : Connection} {call : Call} {reply : Reply}
  {segment : Segment}

def gains (c : Connection) (segment : Segment) : Bytes :=
  match (c.segmentReceived segment).result with
  | .ok after => after.inbound.toList.drop c.inbound.size
  | .error _ => []

structure Grows (c : Connection) (delivered : Bytes) (after : Connection) : Prop where
  toList_eq : after.inbound.toList = c.inbound.toList ++ delivered
  ended : c.inbound.ended = true → after.inbound.ended = true ∧ delivered = []

theorem Grows.refl (c : Connection) : Grows c [] c :=
  ⟨(List.append_nil _).symm, fun ended => ⟨ended, rfl⟩⟩

theorem Grows.trans {middle : Connection} {delivered more : Bytes} (first : Grows c delivered middle)
    (second : Grows middle more after) : Grows c (delivered ++ more) after := by
  refine ⟨?_, fun ended => ?_⟩
  · rw [second.toList_eq, first.toList_eq, List.append_assoc]
  · obtain ⟨ended', rfl⟩ := first.ended ended
    exact second.ended ended'

theorem Part.grows (part : Part incoming c after) (sound : c.inbound.Sound) :
    ∃ delivered, Grows c delivered after ∧ (incoming = none → delivered = []) := by
  cases part with
  | takes came takes =>
    obtain ⟨delivered, goes, -⟩ := takes.spec sound
    refine ⟨delivered, ⟨goes.output_eq, goes.stays_ended⟩, fun none => ?_⟩
    cases came.symm.trans none
  | sends | flushes | replaces | kills | ages | checks | expires =>
    exact ⟨[], ⟨(List.append_nil _).symm, fun ended => ⟨ended, rfl⟩⟩, fun _ => rfl⟩

theorem Intact.grows (intact : Intact c) (parts : Parts incoming c after) :
    ∃ delivered, Grows c delivered after ∧ (incoming = none → delivered = []) := by
  have grown := parts.induction
    (P := fun x => Intact x ∧ ∃ delivered, Grows c delivered x ∧ (incoming = none → delivered = []))
    ⟨intact, [], Grows.refl c, fun _ => rfl⟩ fun x y part reached => by
      obtain ⟨intact', delivered, grows, quiet⟩ := reached
      obtain ⟨more, grows', quiet'⟩ := part.grows intact'.inbound
      exact ⟨intact'.part part, delivered ++ more, grows.trans grows', fun none => by
        rw [quiet none, quiet' none, List.append_nil]⟩
  exact grown.2

theorem Reachable.gains_grows (reachable : Reachable ByteStream.Call.reads c)
    (h : (c.segmentReceived segment).result = .ok after) : Grows c (c.gains segment) after := by
  have intact := reachable.settled.intact
  have performs : (c.perform (.segment segment)).result = .ok (after, .done) := by
    simp [perform, h]
  cases perform_performs performs with
  | receives _ handles =>
    obtain ⟨delivered, grows, -⟩ := intact.grows handles.parts
    have gains_eq : c.gains segment = delivered := by
      unfold gains
      rw [h]
      simp only
      rw [grows.toList_eq, ← ByteStream.length_toList, List.drop_left]
    exact gains_eq.symm ▸ grows

def Call.outward : Call → Bool
  | .segment _ | .inbound _ => false
  | .connect | .write _ | .finish | .abort | .tick _ => true

theorem Reachable.outward_grows (reachable : Reachable ByteStream.Call.reads c)
    (outward : call.outward = true) (h : (c.perform call).result = .ok (after, reply)) :
    Grows c [] after := by
  have intact := reachable.settled.intact
  have still {y : Connection} (intact : Intact c) (parts : Parts none c y) : Grows c [] y := by
    obtain ⟨delivered, grows, quiet⟩ := intact.grows parts
    exact quiet rfl ▸ grows
  cases perform_performs h with
  | connects acts | aborts acts | ticks _ acts => exact still intact acts.parts
  | receives | reads => cases outward
  | ignoresWrite | ignoresFinish => exact Grows.refl c
  | writes accepts replies =>
    obtain ⟨_, grows, quiet⟩ := (intact.outbound_write accepts).grows replies.parts
    obtain rfl := quiet rfl
    exact ⟨grows.toList_eq, grows.ended⟩
  | finishes replies =>
    obtain ⟨_, grows, quiet⟩ := intact.outbound_finish.grows replies.parts
    obtain rfl := quiet rfl
    exact ⟨grows.toList_eq, grows.ended⟩

theorem Reachable.stopped_of_cause (reachable : Reachable ByteStream.Call.reads c)
    (cause : c.cause ≠ none) :
    c.active = false ∧ c.inbound.failed = true ∧ c.outbound.failed = true := by
  obtain ⟨events, traced⟩ := reachable.traced
  cases traced.fate with
  | lives alive => exact absurd alive.cause cause
  | finished _ _ _ none => exact absurd none cause
  | failed inactive failed =>
    exact ⟨inactive, failed, reachable.settled.poisoned.trans failed⟩

theorem Reachable.perform_of_cause (reachable : Reachable ByteStream.Call.reads c)
    (cause : c.cause ≠ none) (other : call.within (fun _ => false) = true)
    (h : (c.perform call).result = .ok (after, reply)) : after = c := by
  obtain ⟨_, same⟩ := perform_of_inactive (reachable.stopped_of_cause cause).1 other
  rw [same] at h
  cases h
  rfl

end TcpStack.Connection

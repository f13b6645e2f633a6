import TcpStack.Proofs.Connection.Ending
import TcpStack.Proofs.Sender.Advance

/-! The states of a connection in the order in which they come. Neither half goes back to a state that it has
left, an error comes only with the step that ends the connection and stays, and what the two marks have
lost they do not get back. -/

namespace TcpStack

def ReceiveState.rank : ReceiveState → Nat
  | .listen => 0
  | .synReceived => 1
  | .finReceived => 2
  | .error => 3

theorem Receiver.Advances.rank_le {r after : Receiver} (advances : r.Advances after)
    (failed : r.stream.failed = true → after.stream.failed = true) :
    r.state.rank ≤ after.state.rank := by
  cases broken : after.stream.failed with
  | true =>
    have last : after.state = .error := if_pos broken
    rw [last]
    cases r.state <;> decide
  | false =>
    have spared : r.stream.failed = false :=
      Bool.eq_false_iff.mpr fun broke => Bool.false_ne_true (broken.symm.trans (failed broke))
    cases known : r.isn with
    | none =>
      have first : r.state = .listen := by
        unfold Receiver.state
        rw [spared, known]
        rfl
      rw [first]
      exact Nat.zero_le _
    | some isn =>
      have known' := advances.isn isn known
      rw [state_of_known (by simp [known]) spared, state_of_known (by simp [known']) broken]
      cases ended : r.stream.ended with
      | false => cases after.stream.ended <;> decide
      | true =>
        have ended' : after.stream.ended = true := advances.finished ended
        rw [ended']

namespace Connection

open Outcome

variable {c middle after : Connection} {call : Call} {reply : Reply} {incoming : Option Segment}
  {accepted : Bytes} {ended : Bool} {isn : SeqNum}

/-- What a connection has done stays done. -/
structure Onward (c after : Connection) : Prop where
  sender : c.sender.Advances after.sender
  receiver : c.receiver.Advances after.receiver
  failed : c.inbound.failed = true → after.inbound.failed = true
  active : after.active = true → c.active = true
  linger : after.linger = true → c.linger = true

theorem Onward.refl (c : Connection) : Onward c c := ⟨.refl _, .refl _, id, id, id⟩

theorem Onward.trans (first : Onward c middle) (second : Onward middle after) : Onward c after :=
  ⟨first.sender.trans second.sender, first.receiver.trans second.receiver,
    second.failed ∘ first.failed, first.active ∘ second.active, first.linger ∘ second.linger⟩

theorem Part.onward (part : Part incoming c after) (speaks : Speaks accepted ended isn c)
    (vouches : Vouches c) : Onward c after := by
  have receiver := (vouches.part part).2
  cases part with
  | sends step => exact ⟨step.advances speaks.serves, receiver, id, id, id⟩
  | takes _ takes =>
    obtain ⟨_, goes, -⟩ := takes.spec vouches.sound
    exact ⟨.refl _, receiver, goes.failed_eq.trans, id, id⟩
  | flushes | replaces | ages => exact ⟨.of_same id rfl rfl rfl, receiver, id, id, id⟩
  | kills =>
    refine ⟨.of_same (fun _ => rfl) rfl rfl rfl, receiver, fun _ => rfl, fun active => ?_, id⟩
    cases active
  | checks =>
    exact ⟨.refl _, receiver, id, fun active => (Bool.and_eq_true_iff.mp active).1, fun lingers =>
      (Bool.and_eq_true_iff.mp lingers).1⟩
  | expires =>
    refine ⟨.refl _, receiver, id, fun active => ?_, id⟩
    cases active

theorem Parts.onward (parts : Parts incoming c after) (speaks : Speaks accepted ended isn c)
    (vouches : Vouches c) : Onward c after := by
  have kept := parts.induction
    (P := fun x => Onward c x ∧ Speaks accepted ended isn x ∧ Vouches x)
    ⟨.refl c, speaks, vouches⟩ ?_
  · exact kept.1
  · rintro x y part ⟨onward, speaks, vouches⟩
    exact ⟨onward.trans (part.onward speaks vouches), speaks.part part, (vouches.part part).1⟩

theorem Performs.onward (performs : Performs c call after reply)
    (within : call.within ByteStream.Call.reads = true) (speaks : Speaks accepted ended isn c)
    (vouches : Vouches c) : Onward c after := by
  have receiver := (vouches.performs within performs).2
  cases performs with
  | connects acts | aborts acts | ticks _ acts => exact acts.parts.onward speaks vouches
  | receives _ handles => exact handles.parts.onward speaks vouches
  | ignoresWrite | ignoresFinish => exact .refl c
  | @writes _ _ stream _ accepts replies =>
    have takes := ByteStream.write_accepts speaks.serves.sound accepts
    have written : Onward c { c with sender := { c.sender with stream } } :=
      ⟨.of_same takes.failed_eq.trans rfl rfl rfl, .refl _, id, id, id⟩
    exact written.trans (replies.parts.onward (speaks.write accepts) (vouches.withStream stream))
  | finishes replies =>
    have finished : Onward c
        { c with sender := { c.sender with stream := c.sender.stream.finish } } :=
      ⟨.of_same id rfl rfl rfl, .refl _, id, id, id⟩
    exact finished.trans (replies.parts.onward speaks.finish (vouches.withStream _))
  | reads takes =>
    obtain ⟨_, drops, -⟩ := ByteStream.perform_drops vouches.sound within takes
    exact ⟨.refl _, receiver, drops.failed_eq.trans, id, id⟩

/-- The states as they are seen. An error comes only as the connection ends. -/
structure Forward (c after : Connection) : Prop where
  sender : c.sender.state.rank ≤ after.sender.state.rank
  receiver : c.receiver.state.rank ≤ after.receiver.state.rank
  sender_error : after.sender.state = .error →
    c.sender.state = .error ∨ c.active = true ∧ after.active = false
  receiver_error : after.receiver.state = .error →
    c.receiver.state = .error ∨ c.active = true ∧ after.active = false
  active : after.active = true → c.active = true
  linger : after.linger = true → c.linger = true
  lingers : after.summary.linger = true → c.summary.linger = true

theorem Forward.refl (c : Connection) : Forward c c :=
  ⟨Nat.le_refl _, Nat.le_refl _, Or.inl, Or.inl, id, id, id⟩

theorem Forward.trans (first : Forward c middle) (second : Forward middle after) :
    Forward c after := by
  have inactive (stopped : middle.active = false) : after.active = false :=
    Bool.eq_false_iff.mpr fun active =>
      Bool.false_ne_true (stopped.symm.trans (second.active active))
  have ends {P : Prop} (step : P ∨ c.active = true ∧ middle.active = false) :
      P ∨ c.active = true ∧ after.active = false :=
    step.imp_right fun ⟨active, stopped⟩ => ⟨active, inactive stopped⟩
  refine ⟨Nat.le_trans first.sender second.sender, Nat.le_trans first.receiver second.receiver,
    fun error => ?_, fun error => ?_, first.active ∘ second.active, first.linger ∘ second.linger,
    first.lingers ∘ second.lingers⟩
  · rcases second.sender_error error with before | ⟨active, stopped⟩
    · exact ends (first.sender_error before)
    · exact Or.inr ⟨first.active active, stopped⟩
  · rcases second.receiver_error error with before | ⟨active, stopped⟩
    · exact ends (first.receiver_error before)
    · exact Or.inr ⟨first.active active, stopped⟩

theorem receiver_error_iff : c.receiver.state = .error ↔ c.inbound.failed = true := by
  unfold Receiver.state
  change _ ↔ c.receiver.stream.failed = true
  split_ifs <;> simp_all

theorem Reachable.forward (reachable : Reachable ByteStream.Call.reads c)
    (within : call.within ByteStream.Call.reads = true)
    (h : (c.perform call).result = .ok (after, reply)) : Forward c after := by
  have reachable' := reachable.called within h
  obtain ⟨events, traced⟩ := reachable.traced
  obtain ⟨⟨ended, isn, speaks⟩, -⟩ := traced.speaks
  have onward := (perform_performs h).onward within speaks reachable.vouches
  have intact := reachable.settled.intact
  have intact' := reachable'.settled.intact
  have stopped (failed : after.inbound.failed = true ∨ after.outbound.failed = true) :
      after.active = false := by
    refine Bool.eq_false_iff.mpr fun active => ?_
    obtain ⟨spared, spared'⟩ := intact'.alive active
    simp [spared, spared'] at failed
  -- A connection that was over before has the streams that it had.
  have still (inactive : c.active = false) : after.sender = c.sender ∧
      after.inbound.failed = c.inbound.failed := by
    obtain ⟨receiver, rfl, same⟩ := perform_inactive inactive intact.inbound within h
    exact ⟨rfl, same⟩
  refine ⟨onward.sender.rank_le reachable.vouches.ledger reachable'.vouches.ledger,
    onward.receiver.rank_le onward.failed, fun error => ?_, fun error => ?_, onward.active,
    onward.linger, fun lingers => ?_⟩
  · cases active : c.active with
    | true => exact Or.inr ⟨rfl, stopped (Or.inr (Sender.error_iff.mp error))⟩
    | false => exact Or.inl ((still active).1 ▸ error)
  · cases active : c.active with
    | true => exact Or.inr ⟨rfl, stopped (Or.inl (receiver_error_iff.mp error))⟩
    | false =>
      rw [receiver_error_iff] at error ⊢
      exact Or.inl ((still active).2.symm.trans error)
  · obtain ⟨active, lingers⟩ := Bool.and_eq_true_iff.mp lingers
    exact Bool.and_eq_true_iff.mpr ⟨onward.active active, onward.linger lingers⟩

theorem Reachable.forward_all {calls : List Call} (reachable : Reachable ByteStream.Call.reads c)
    (within : ∀ call ∈ calls, call.within ByteStream.Call.reads = true)
    (h : c.performAll calls = .ok after) : Forward c after := by
  have kept := foldlM_induction
    (P := fun x => Reachable ByteStream.Call.reads x ∧ Forward c x) h ⟨reachable, .refl c⟩ ?_
  · exact kept.2
  · rintro call member x y step ⟨reached, forward⟩
    simp only [map_eq_ok] at step
    obtain ⟨⟨_, reply⟩, performs, rfl⟩ := step
    exact ⟨reached.called (within call member) performs,
      forward.trans (reached.forward (within call member) performs)⟩

/-- The state of a connection only moves forward, with every call and over any number of them: neither half
goes back, an error comes with the call that ends the connection and is the last state of its half, and a
connection that is over or does not linger never is active or lingers again. -/
theorem state_only_moves_forward (reachable : Reachable ByteStream.Call.reads c) :
    (∀ call after reply, call.within ByteStream.Call.reads = true →
      (c.perform call).result = .ok (after, reply) → Forward c after) ∧
    (∀ calls after, (∀ call ∈ calls, call.within ByteStream.Call.reads = true) →
      c.performAll calls = .ok after → Forward c after) :=
  ⟨fun _ _ _ within h => reachable.forward within h, fun _ _ within h =>
    reachable.forward_all within h⟩

theorem state_moves_to_error : ∃ c after, Reachable ByteStream.Call.reads c ∧ c.active = true ∧
    c.sender.state = .synAcked ∧
    c.performAll [.finish, .segment { rst := true, seqno := ⟨5001⟩ }] = .ok after ∧
    after.sender.state = .error ∧ Forward c after := by
  have seen : (fun c : Connection => (c.active, c.sender.state,
      (fun after : Connection => after.sender.state) <$>
        c.performAll [.finish, .segment { rst := true, seqno := ⟨5001⟩ }])) <$> dial 4 [] =
      .ok (true, .synAcked, .ok .error) := by decide +kernel
  obtain ⟨c, dialed, look⟩ := map_eq_ok.mp seen
  simp only [Prod.mk.injEq] at look
  obtain ⟨active, state, later⟩ := look
  obtain ⟨after, h, error⟩ := map_eq_ok.mp later
  have reachable : Reachable ByteStream.Call.reads c :=
    reachable_dial (by decide) (by decide) (by simp) dialed
  exact ⟨c, after, reachable, active, state, h, error,
    (state_only_moves_forward reachable).2 _ after (by simp [Call.within]) h⟩

end Connection
end TcpStack

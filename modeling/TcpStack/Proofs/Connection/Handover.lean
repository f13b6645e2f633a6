import TcpStack.Proofs.Connection.Copies
import TcpStack.Proofs.Connection.Ticking

/-! How segments come from the sender into the queue of its connection. Between two calls nothing is left with the
sender: all that it said in the course of a call is queued, in the order in which it was said, unless the
connection ends with an RST, which goes out in its place. -/

namespace TcpStack.Connection

open Outcome Segment

variable {allows : ByteStream.Call → Bool} {elapsed : Nat} {c after : Connection} {call : Call} {reply : Reply}
  {asked : List Sender.Call} {segment : Segment}

/-- What a call has queued, told by what the sender said as it was asked all this. It is all of that in order, with
the acknowledgment fields filled in, or an RST that ends the connection. The RST goes out in place of nothing, or of a
segment in flight that was to be sent again. -/
inductive HandsOver (c : Connection) (asked : List Sender.Call) (queued : List Segment) (after : Connection) : Prop
  | all {done : List Sender.Event} {sender : Sender} (asks : c.sender.record asked = .ok (done, sender))
      (stamps : (Sender.sent done).mapM after.receiver.stamp = .ok queued)
      (left : after.sender = { sender with queued := [] })
  | instead {done : List Sender.Event} {sender : Sender} {rst : Segment}
      (asks : c.sender.record asked = .ok (done, sender))
      (again : Sender.sent done = [] ∨
        ∃ oldest rest, c.sender.outstanding = oldest :: rest ∧ Sender.sent done = [oldest.segment])
      (only : queued = [rst]) (flag : rst.rst = true) (bare : rst.sequenceLength = 0)
      (seqno : rst.seqno = sender.nextWire)
      (left : after.sender = { sender with queued := [], stream := sender.stream.fail }) (ended : after.active = false)

theorem Relays.handsOver {top : Nat} (relays : Relays top c asked after) (empty : c.sender.queued = []) :
    HandsOver c asked (c.event call after reply).queued after := by
  cases relays with
  | moves works stamps sender_eq queued_eq =>
    obtain ⟨_, asks⟩ := works.asks
    have said := Sender.queued_of_record asks
    rw [empty, List.nil_append] at said
    rw [queued_event queued_eq]
    exact .all asks (said ▸ stamps) sender_eq

theorem Resets.handsOver {cause : Option ResetCause} {rst : Segment} {aged : Sender}
    {done : List Sender.Event} (idle : Nat) (resets : Resets { c with idle, sender := aged } cause rst after)
    (asks : c.sender.record asked = .ok (done, aged)) (again : Sender.sent done = [] ∨
      ∃ oldest rest, c.sender.outstanding = oldest :: rest ∧ Sender.sent done = [oldest.segment]) :
    HandsOver c asked (c.event call after reply).queued after := by
  obtain ⟨flag, bare, seqno⟩ := resets.bare
  exact .instead asks again (queued_event resets.queued_eq) flag bare seqno resets.sender_eq resets.active_eq

theorem record_of_tick {aged : Sender} (ticks : (c.sender.tick elapsed).result = .ok aged)
    (empty : c.sender.queued = []) : ∃ done, c.sender.record [.tick elapsed] = .ok (done, aged) ∧
      Sender.sent done = aged.queued ∧ (Sender.sent done = [] ∨
        ∃ oldest rest, c.sender.outstanding = oldest :: rest ∧ Sender.sent done = [oldest.segment]) := by
  have performs : (c.sender.perform (.tick elapsed)).result = .ok (aged, .done) := by simp [Sender.perform, ticks]
  have asks := Sender.record_singleton performs
  have said := Sender.queued_of_record asks
  rw [empty, List.nil_append] at said
  refine ⟨_, asks, said.symm, ?_⟩
  rw [← said]
  cases Sender.tick_ages ticks with
  | waits | rests => exact Or.inl empty
  | resends _ inFlight => exact Or.inr ⟨_, _, inFlight, by rw [empty]; rfl⟩

theorem Elapses.handsOver (elapses : Elapses c elapsed after) (empty : c.sender.queued = []) :
    HandsOver c (if c.active then [.tick elapsed] else []) (c.event call after reply).queued after := by
  cases elapses with
  | sleeps inactive =>
    rw [inactive, queued_event (List.append_nil c.queued).symm]
    exact .all rfl rfl (by rw [← empty])
  | givesUp active _ ticks _ resets =>
    obtain ⟨_, asks, -, again⟩ := record_of_tick ticks empty
    rw [active]
    exact Resets.handsOver _ resets asks again
  | goesOn active _ ticks _ flushes =>
    obtain ⟨_, asks, said, -⟩ := record_of_tick ticks empty
    cases flushes with
    | moves stamps =>
      rw [active, queued_event rfl]
      exact .all asks (said ▸ stamps) rfl

/-- Whatever is called, and whatever segment comes: the sender is left with nothing, and what it said when it was
asked was queued. -/
theorem Does.handsOver (does : Does c call asked after reply) (reachable : Reachable allows c) :
    after.sender.queued = [] ∧ HandsOver c asked (c.event call after reply).queued after ∧
      after.queued = c.queued ++ (c.event call after reply).queued := by
  obtain ⟨made, empty⟩ := reachable.sender
  have performs := perform_eq_ok_iff.mpr ⟨asked, does⟩
  have behind {queued : List Segment} (queued_eq : after.queued = c.queued ++ queued) :
      after.queued = c.queued ++ (c.event call after reply).queued := by rw [queued_event queued_eq, queued_eq]
  rcases does.relays made empty with relays | ⟨rfl, rst, resets⟩ | ⟨elapsed, rfl, elapses⟩
  · refine ⟨relays.empty, relays.handsOver empty, ?_⟩
    cases relays with
    | moves _ _ _ queued_eq => exact behind queued_eq
  · have nothing : c.sender.record [] = .ok ([], c.sender) := rfl
    exact ⟨by rw [resets.sender_eq], Resets.handsOver c.idle resets nothing (Or.inl rfl), behind resets.queued_eq⟩
  · cases does with
    | ticks =>
      refine ⟨(elapses.sender made empty).2.1, elapses.handsOver empty, ?_⟩
      cases elapses with
      | sleeps => exact behind (List.append_nil _).symm
      | givesUp _ _ _ _ resets => exact behind resets.queued_eq
      | goesOn _ _ _ _ flushes =>
        cases flushes
        exact behind rfl

section answers

theorem Flushes.grows (flushes : Flushes c after) (some : c.sender.queued ≠ []) :
    c.queued.length < after.queued.length := by
  cases flushes with
  | @moves stamped stamps =>
    have positive := List.length_pos_iff.mpr some
    have same := congrArg List.length (Receiver.map_unstamped_of_stamps stamps)
    rw [List.length_map, List.length_map] at same
    rw [List.length_append]
    omega

theorem Flushes.grows_of_reply {sender : Sender}
    (flushes : Flushes { c with sender := sender.sendEmpty } after) : c.queued.length < after.queued.length :=
  flushes.grows (List.append_ne_nil_of_right_ne_nil _ (List.cons_ne_nil _ _))

theorem Responds.grows (responds : Responds c segment asked after) (some : 0 < segment.sequenceLength)
    (active : after.active = true) : c.queued.length < after.queued.length := by
  cases responds with
  | ended inactive => cases active.symm.trans inactive
  | answers _ _ _ _ flushes => exact flushes.grows_of_reply (c := c)
  | @sends sender _ _ _ said flushes => exact flushes.grows (c := { c with sender }) (said some)

theorem Does.answers (does : Does c (.segment segment) asked after reply) (reachable : Reachable allows c)
    (known : c.synchronized = true) (plain : segment.rst = false) (some : 0 < segment.sequenceLength)
    (active : after.active = true) : (c.event (.segment segment) after reply).queued ≠ [] := by
  have queued_eq := (does.handsOver reachable).2.2
  have known : c.receiver.isn ≠ none := Option.isSome_iff_ne_none.mp known
  have grows : c.queued.length < after.queued.length := by
    cases does with
    | receives receives =>
      cases receives with
      | sleeps inactive => cases active.symm.trans inactive
      | listening _ unknown | synSent _ unknown => exact absurd unknown known
      | synchronized _ _ receives =>
        cases receives with
        | ignores rst | ends rst => cases rst.symm.trans plain
        | answers _ _ _ _ _ flushes => exact flushes.grows_of_reply (c := { c with idle := 0 })
        | takes _ _ _ _ _ _ responds => exact responds.grows some active
  intro none
  rw [queued_eq, none, List.append_nil] at grows
  exact Nat.lt_irrefl _ grows

end answers

end TcpStack.Connection

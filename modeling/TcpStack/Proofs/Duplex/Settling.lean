import TcpStack.Proofs.Connection.Load
import TcpStack.Proofs.Duplex.InOrder

/-! Two ends that are left alone fall silent. Each segment that goes over, or is lost on the way, takes more off
what the two have left to say than it adds: one that takes no number is not answered, as it is no probe and
acknowledges nothing that was not sent, and what new data is sent was unsent before. So when all that is
queued goes over again and again, in one direction and then in the other, nothing is left after a number of
segments that is known beforehand, whichever of them are lost. -/

namespace TcpStack.Duplex

open Connection Outcome Segment

/-- What the two ends have left to say, if their applications and clocks are at rest. -/
def load (d : Duplex) : Nat := d.first.connection.load + d.second.connection.load

/-- Carries the `count` oldest segments from the queue of an end over, the first of them as number `number` of
all that go over. -/
def carry (loses : Nat → Bool) (side : Side) : (count number : Nat) → Duplex → Except Fault Duplex
  | 0, _, d => return d
  | count + 1, number, d => do carry loses side count (number + 1) (← d.pass side (loses number))

/-- Carries all that is queued from the first end to the second and then from the second to the first, again and
again. Comes with the number of segments that went over or were lost. -/
def exchange (loses : Nat → Bool) : (rounds number : Nat) → Duplex → Except Fault (Duplex × Nat)
  | 0, number, d => return (d, number)
  | rounds + 1, number, d => do
    let there := (d.endpoint .first).connection.queued.length
    let d ← carry loses .first there number d
    let back := (d.endpoint .second).connection.queued.length
    let d ← carry loses .second back (number + there) d
    exchange loses rounds (number + there + back) d

variable {d after : Duplex} {side : Side}

theorem load_eq (d : Duplex) (side : Side) :
    d.load = (d.endpoint side).connection.load + (d.endpoint side.other).connection.load := by
  cases side with
  | first => rfl
  | second => exact Nat.add_comm _ _

/-- The streams are so short that no number of them can be mistaken for another. -/
def Short (d : Duplex) : Prop := ∀ side, (d.endpoint side).accepted.length + 2 < SeqNum.half

theorem load_emit {e : Endpoint} {segment : Segment} {rest : List Segment}
    (queued : e.connection.queued = segment :: rest) :
    (e.emit 1).connection.load + segment.weight = e.connection.load := by
  rw [connection_emit queued]
  simp only [Connection.load, queued, weigh]
  omega

theorem InOrder.receives (ordered : d.InOrder) (short : d.Short) {segment : Segment}
    {rest : List Segment} (queued : (d.endpoint side).connection.queued = segment :: rest) :
    ∃ c, ((d.endpoint side.other).connection.segmentReceived segment).result = .ok c ∧
      c.load < (d.endpoint side.other).connection.load + segment.weight := by
  have reachable := ordered.reachable
  obtain ⟨p, flows⟩ := reachable.flows side (short side)
  obtain ⟨ended, isn, runs⟩ := reachable.runs side.other (short side.other)
  have sent_le := flows.sent_le
  have short_side := short side
  have launched := flows.paces.queued segment (by simp [queued])
  have ready := flows.keeps.ready (by omega) (Receiver.length_le_of_launched launched)
  have received := segment_returns ready runs
  have accepts : (d.endpoint side.other).connection.acceptsAck segment = .ok true := by
    have short' : ((d.leave side).endpoint side.other).accepted.length + 2 < SeqNum.half := by
      rw [endpoint_other_leave]
      exact short side.other
    have accepts := (reachable.leave side).acceptsAck short' (mem_emitted_leave queued)
    rwa [endpoint_other_leave] at accepts
  have calm : segment.sequenceLength = 0 → segment.rst = false →
      (d.endpoint side.other).connection.isProbe segment = .ok false := by
    intro empty plain
    have inLine := ordered.lined side (short side)
    rw [waiting_of_queued queued] at inLine
    obtain ⟨_, trails⟩ := inLine.head empty plain
    exact trails.isProbe_eq
  obtain ⟨c, received⟩ := received
  exact ⟨c, received, segmentReceived_load_lt runs.serves.sound accepts calm received⟩

theorem Passes.accepted_eq (passes : Passes d side after) (direction : Side) :
    (after.endpoint direction).accepted = (d.endpoint direction).accepted := by
  cases passes with
  | nothing => rfl
  | loses =>
    obtain rfl | rfl := direction.eq_or_eq_other side
    · rw [endpoint_leave]
      rfl
    · rw [endpoint_other_leave]
  | delivers =>
    obtain rfl | rfl := direction.eq_or_eq_other side
    · rw [endpoint_withEndpoint_other, endpoint_leave]
      rfl
    · rw [endpoint_withEndpoint]

theorem Passes.queued_eq (passes : Passes d side after) :
    (after.endpoint side).connection.queued = (d.endpoint side).connection.queued.drop 1 := by
  cases passes with
  | nothing empty => rw [empty, List.drop_nil]
  | loses =>
    rw [endpoint_leave]
    rfl
  | delivers =>
    rw [endpoint_withEndpoint_other, endpoint_leave]
    rfl

theorem InOrder.load_lt (ordered : d.InOrder) (short : d.Short) (passes : Passes d side after)
    (some : (d.endpoint side).connection.queued ≠ []) : after.load < d.load := by
  rw [load_eq d side, load_eq after side]
  cases passes with
  | nothing empty => exact absurd empty some
  | @loses segment rest queued =>
    have emitted := load_emit queued
    have weight_pos := segment.weight_pos
    rw [endpoint_leave, endpoint_other_leave]
    omega
  | @delivers segment rest c queued received =>
    have emitted := load_emit queued
    obtain ⟨c', received', load_lt⟩ := ordered.receives short queued
    obtain rfl : c = c' := Except.ok.inj (received.symm.trans received')
    rw [endpoint_withEndpoint_other, endpoint_withEndpoint, endpoint_leave]
    change _ + c.load < _
    omega

theorem InOrder.pass_returns (ordered : d.InOrder) (short : d.Short) (side : Side) (lost : Bool) :
    ∃ after, d.pass side lost = .ok after := by
  cases queued : (d.endpoint side).connection.queued with
  | nil =>
    unfold pass
    rw [queued]
    exact ⟨d, rfl⟩
  | cons segment rest =>
    obtain ⟨c, received, -⟩ := ordered.receives short queued
    have performs := perform_segment_eq_ok.mpr ⟨c, received, rfl⟩
    rw [pass_eq queued, performs, ok_bind]
    split <;> exact ⟨_, rfl⟩

structure Shrinks (d : Duplex) (side : Side) (count : Nat) (after : Duplex) : Prop where
  ordered : after.InOrder
  accepted_eq : ∀ side, (after.endpoint side).accepted = (d.endpoint side).accepted
  load_le : after.load + count ≤ d.load
  queued_eq : (after.endpoint side).connection.queued = (d.endpoint side).connection.queued.drop count

theorem Shrinks.short {count : Nat} (shrinks : Shrinks d side count after) (short : d.Short) :
    after.Short := fun side => by
  rw [shrinks.accepted_eq]
  exact short side

theorem InOrder.shrinks_nothing (ordered : d.InOrder) (side : Side) : Shrinks d side 0 d :=
  ⟨ordered, fun _ => rfl, Nat.le_refl _, rfl⟩

theorem InOrder.pass_shrinks (ordered : d.InOrder) (short : d.Short) (lost : Bool)
    (some : (d.endpoint side).connection.queued ≠ []) :
    ∃ after, d.pass side lost = .ok after ∧ Shrinks d side 1 after := by
  obtain ⟨after, h⟩ := ordered.pass_returns short side lost
  have turns : d.turn (.pass side lost) = .ok after := h
  have passes := pass_passes h
  exact ⟨after, h, ordered.turned turns, passes.accepted_eq, ordered.load_lt short passes some,
    passes.queued_eq⟩

theorem Shrinks.trans {middle : Duplex} {count more : Nat} (first : Shrinks d side count middle)
    (second : Shrinks middle side more after) : Shrinks d side (count + more) after := by
  have load_le := first.load_le
  have load_le' := second.load_le
  refine ⟨second.ordered, fun direction => ?_, by omega, ?_⟩
  · rw [second.accepted_eq, first.accepted_eq]
  · rw [second.queued_eq, first.queued_eq, List.drop_drop]

theorem InOrder.carry_shrinks (loses : Nat → Bool) {count : Nat} (number : Nat) (ordered : d.InOrder)
    (short : d.Short) (enough : count ≤ (d.endpoint side).connection.queued.length) :
    ∃ after, carry loses side count number d = .ok after ∧ Shrinks d side count after := by
  induction count generalizing d number with
  | zero => exact ⟨d, rfl, ordered.shrinks_nothing side⟩
  | succ count ih =>
    have some : (d.endpoint side).connection.queued ≠ [] := List.ne_nil_of_length_pos (by omega)
    obtain ⟨middle, passes, first⟩ := ordered.pass_shrinks short (loses number) some
    have left : count ≤ (middle.endpoint side).connection.queued.length := by
      rw [first.queued_eq, List.length_drop]
      omega
    obtain ⟨after, carries, second⟩ := ih (number + 1) first.ordered (first.short short) left
    refine ⟨after, ?_, Nat.add_comm 1 count ▸ first.trans second⟩
    rw [carry, passes, ok_bind, carries]

theorem InOrder.carry_all (loses : Nat → Bool) (side : Side) (number : Nat) (ordered : d.InOrder)
    (short : d.Short) : ∃ after,
      carry loses side (d.endpoint side).connection.queued.length number d = .ok after ∧
      Shrinks d side (d.endpoint side).connection.queued.length after ∧
      (after.endpoint side).connection.queued = [] := by
  obtain ⟨after, carries, shrinks⟩ := ordered.carry_shrinks loses number short (Nat.le_refl _)
  exact ⟨after, carries, shrinks, by rw [shrinks.queued_eq, List.drop_length]⟩

def Silent (d : Duplex) : Prop := ∀ side, (d.endpoint side).connection.queued = []

theorem silent_of_load (none : d.load = 0) : d.Silent := by
  intro side
  have load_eq := load_eq d side
  have length_le := length_queued_le_load (d.endpoint side).connection
  exact List.eq_nil_of_length_eq_zero (by omega)

theorem exchange_of_silent (loses : Nat → Bool) (rounds number : Nat) (silent : d.Silent) :
    exchange loses rounds number d = .ok (d, number) := by
  induction rounds with
  | zero => rfl
  | succ rounds ih =>
    simp only [exchange, silent .first, silent .second, List.length_nil, carry, pure_bind,
      Nat.add_zero, ih]

theorem InOrder.exchange_returns (loses : Nat → Bool) {rounds : Nat} (number : Nat)
    (ordered : d.InOrder) (short : d.Short) : ∃ after carried,
      exchange loses rounds number d = .ok (after, carried) ∧ after.load + carried ≤ d.load + number ∧
      (d.load ≤ rounds → after.Silent) := by
  induction rounds generalizing d number with
  | zero =>
    exact ⟨d, number, rfl, Nat.le_refl _, fun enough =>
      silent_of_load (Nat.eq_zero_of_le_zero enough)⟩
  | succ rounds ih =>
    by_cases silent : d.Silent
    · exact ⟨d, number, exchange_of_silent loses _ number silent, Nat.le_refl _, fun _ => silent⟩
    obtain ⟨middle, there, first, -⟩ := ordered.carry_all loses .first number short
    obtain ⟨later, back, second, -⟩ := first.ordered.carry_all loses .second
      (number + (d.endpoint .first).connection.queued.length) (first.short short)
    obtain ⟨after, carried, goesOn, load_le, settles⟩ := ih
      (number + (d.endpoint .first).connection.queued.length +
        (middle.endpoint .second).connection.queued.length)
      second.ordered (second.short (first.short short))
    have there_le := first.load_le
    have back_le := second.load_le
    refine ⟨after, carried, ?_, by omega, fun enough => settles ?_⟩
    · simp only [exchange, there, back, ok_bind, goesOn]
    -- if nothing went over in either direction, nothing was queued at all
    have moved : 0 < (d.endpoint .first).connection.queued.length +
        (middle.endpoint .second).connection.queued.length := by
      by_contra still
      have none : (d.endpoint .first).connection.queued = [] :=
        List.eq_nil_of_length_eq_zero (by omega)
      have none' : (middle.endpoint .second).connection.queued = [] :=
        List.eq_nil_of_length_eq_zero (by omega)
      rw [none] at there
      obtain rfl : d = middle := pure_eq_ok.mp there
      exact silent fun side => by cases side <;> assumption
    omega

/-- Two ends that are left alone fall silent. -/
theorem exchange_settles {d : Duplex} (ordered : d.InOrder)
    (short : ∀ side, (d.endpoint side).accepted.length < SeqNum.half - 2) (loses : Nat → Bool)
    {rounds : Nat} (enough : d.load ≤ rounds) : ∃ after carried,
      exchange loses rounds 0 d = .ok (after, carried) ∧ carried ≤ d.load ∧
      ∀ side, (after.endpoint side).connection.queued = [] := by
  have near : d.Short := fun side => by
    have bound := short side
    omega
  obtain ⟨after, carried, exchanges, load_le, settles⟩ := ordered.exchange_returns loses 0 near
  exact ⟨after, carried, exchanges, by omega, settles enough⟩

theorem exchange_settles_over_loss : ∃ (d after : Duplex) (carried : Nat), d.InOrder ∧
    (∀ side, (d.endpoint side).accepted.length < SeqNum.half - 2) ∧
    (d.endpoint .first).connection.queued.length = 3 ∧
    (d.endpoint .second).connection.queued.length = 1 ∧ d.load = 16 ∧
    exchange (fun number => number == 1) 16 0 d = .ok (after, carried) ∧ carried ≤ 16 ∧
    ∀ side, (after.endpoint side).connection.queued = [] := by
  have seen : (fun d : Duplex => ((d.endpoint .first).accepted, (d.endpoint .second).accepted,
      (d.endpoint .first).connection.queued.length, (d.endpoint .second).connection.queued.length,
      d.load)) <$>
      meetingInOrder [.call .first .connect, .pass .first false, .pass .second false,
        .call .first (.write [97, 98, 99]), .call .first .finish,
        .call .second (.write [120, 121]), .call .second (.tick 2000)] =
      .ok ([97, 98, 99], [120, 121], 3, 1, 16) := by
    decide +kernel
  obtain ⟨d, met, look⟩ := map_eq_ok.mp seen
  simp only [Prod.mk.injEq] at look
  obtain ⟨accepted, accepted', queued, queued', load⟩ := look
  have ordered := inOrder_meeting met
  have short (side : Side) : (d.endpoint side).accepted.length < SeqNum.half - 2 := by
    cases side with
    | first =>
      rw [accepted]
      decide
    | second =>
      rw [accepted']
      decide
  obtain ⟨after, carried, exchanges, carried_le, silent⟩ :=
    exchange_settles ordered short (fun number => number == 1) (Nat.le_of_eq load)
  exact ⟨d, after, carried, ordered, short, queued, queued', load, exchanges, load ▸ carried_le, silent⟩

end TcpStack.Duplex

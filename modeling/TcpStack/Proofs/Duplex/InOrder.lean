import TcpStack.Proofs.Connection.Line
import TcpStack.Proofs.Duplex.FlowControl

/-! Two ends with a link between them that keeps the order. A segment that leaves the queue of one end comes in
at the other before the next one leaves, or is lost. For a segment that is long on the way nothing else is
needed: it is one that waits in the queue, which no call looks at. -/

namespace TcpStack.Duplex

open Connection Outcome

open Sender (Progress Launched)

/-- What may happen if the link keeps the order. -/
inductive Turn where
  | call (side : Side) (call : Connection.Call)
  | pass (side : Side) (lost : Bool)
deriving DecidableEq, Repr

def leave (d : Duplex) (side : Side) : Duplex := d.withEndpoint side ((d.endpoint side).emit 1)

def pass (d : Duplex) (side : Side) (lost : Bool) : Except Fault Duplex :=
  match (d.endpoint side).connection.queued with
  | [] => return d
  | segment :: _ =>
    if lost then return d.leave side
    else do
      let other ← (d.endpoint side.other).perform (.segment segment)
      return (d.leave side).withEndpoint side.other other

def turn (d : Duplex) : Turn → Except Fault Duplex
  | .call side call => d.act (.call side call)
  | .pass side lost => d.pass side lost

/-- What two fresh ends come to over such a link. -/
inductive InOrder : Duplex → Prop
  | opened {config config' : Config} {isn isn' : SeqNum} {c c' : Connection}
      (first : Connection.new? config isn = .ok (.ok c))
      (second : Connection.new? config' isn' = .ok (.ok c')) :
      InOrder ⟨{ connection := c }, { connection := c' }⟩
  | turned {d after : Duplex} {next : Turn} (before : InOrder d) (turns : d.turn next = .ok after) :
      InOrder after

theorem InOrder.turns {d after : Duplex} {turns : List Turn} (before : InOrder d)
    (h : turns.foldlM turn d = .ok after) : InOrder after :=
  foldlM_induction h before fun _ _ _ _ turns ordered => ordered.turned turns

def meetingInOrder (turns : List Turn) : Except Fault Duplex := do turns.foldlM turn (← meeting [])

theorem inOrder_meeting {turns : List Turn} {d : Duplex} (h : meetingInOrder turns = .ok d) :
    d.InOrder :=
  (InOrder.opened (new?_of_meeting _) (new?_of_meeting _)).turns h

@[simp] theorem endpoint_withEndpoint (d : Duplex) (side : Side) (e : Endpoint) :
    (d.withEndpoint side e).endpoint side = e := by
  cases side <;> rfl

@[simp] theorem endpoint_other_withEndpoint (d : Duplex) (side : Side) (e : Endpoint) :
    (d.withEndpoint side e).endpoint side.other = d.endpoint side.other := by
  cases side <;> rfl

@[simp] theorem endpoint_withEndpoint_other (d : Duplex) (side : Side) (e : Endpoint) :
    (d.withEndpoint side.other e).endpoint side = d.endpoint side := by
  cases side <;> rfl

variable {d after : Duplex} {side : Side}

theorem act_call {call : Connection.Call} (h : d.act (.call side call) = .ok after) :
    after = d ∨ ∃ e, (∀ arriving, Endpoint.Step arriving (d.endpoint side) e) ∧
      after = d.withEndpoint side e := by
  unfold act Endpoint.perform at h
  simp only at h
  split at h
  · rename_i own
    simp only [bind_eq_ok, pure_eq_ok] at h
    obtain ⟨_, ⟨⟨connection, reply⟩, performs, rfl⟩, rfl⟩ := h
    exact Or.inr ⟨_, fun _ => .calls own (Connection.perform_performs performs), rfl⟩
  · cases h
    exact Or.inl rfl

theorem perform_segment_eq_ok {e e' : Endpoint} {segment : Segment} :
    e.perform (.segment segment) = .ok e' ↔
      ∃ c, (e.connection.segmentReceived segment).result = .ok c ∧ e' = { e with connection := c } := by
  unfold Endpoint.perform Connection.perform
  simp only [Run.result_bind, Run.result_pure, bind_eq_ok, pure_eq_ok, Except.ok.injEq]
  constructor
  · rintro ⟨_, ⟨c, received, rfl⟩, rfl⟩
    exact ⟨c, received, rfl⟩
  · rintro ⟨c, received, rfl⟩
    exact ⟨_, ⟨c, received, rfl⟩, rfl⟩

inductive Passes (d : Duplex) (side : Side) : Duplex → Prop
  | nothing (empty : (d.endpoint side).connection.queued = []) : Passes d side d
  | loses {segment : Segment} {rest : List Segment}
      (queued : (d.endpoint side).connection.queued = segment :: rest) : Passes d side (d.leave side)
  | delivers {segment : Segment} {rest : List Segment} {c : Connection}
      (queued : (d.endpoint side).connection.queued = segment :: rest)
      (received : ((d.endpoint side.other).connection.segmentReceived segment).result = .ok c) :
      Passes d side ((d.leave side).withEndpoint side.other
        { d.endpoint side.other with connection := c })

theorem pass_eq {segment : Segment} {rest : List Segment}
    (queued : (d.endpoint side).connection.queued = segment :: rest) (lost : Bool) :
    d.pass side lost = if lost then return d.leave side
      else do
        let other ← (d.endpoint side.other).perform (.segment segment)
        return (d.leave side).withEndpoint side.other other := by
  unfold pass
  rw [queued]

theorem pass_passes {lost : Bool} (h : d.pass side lost = .ok after) : Passes d side after := by
  unfold pass at h
  split at h
  · rename_i empty
    cases h
    exact .nothing empty
  · rename_i segment rest queued
    split at h
    · cases h
      exact .loses queued
    · simp only [bind_eq_ok, pure_eq_ok] at h
      obtain ⟨other, performs, rfl⟩ := h
      obtain ⟨c, received, rfl⟩ := perform_segment_eq_ok.mp performs
      exact .delivers queued received

@[simp] theorem endpoint_leave (d : Duplex) (side : Side) :
    (d.leave side).endpoint side = (d.endpoint side).emit 1 := endpoint_withEndpoint _ _ _

@[simp] theorem endpoint_other_leave (d : Duplex) (side : Side) :
    (d.leave side).endpoint side.other = d.endpoint side.other := endpoint_other_withEndpoint _ _ _

theorem emitted_leave {segment : Segment} {rest : List Segment}
    (queued : (d.endpoint side).connection.queued = segment :: rest) :
    ((d.leave side).endpoint side).emitted = (d.endpoint side).emitted ++ [segment] := by
  simp [Endpoint.emit, queued]

theorem connection_emit {e : Endpoint} {segment : Segment} {rest : List Segment}
    (queued : e.connection.queued = segment :: rest) :
    (e.emit 1).connection = { e.connection with queued := rest } := by
  rw [Endpoint.emit, queued]
  rfl

theorem mem_emitted_leave {segment : Segment} {rest : List Segment}
    (queued : (d.endpoint side).connection.queued = segment :: rest) :
    segment ∈ ((d.leave side).endpoint side).emitted := by
  rw [emitted_leave queued]
  exact List.mem_append_right _ (List.mem_singleton_self segment)

theorem Reachable.leave (reachable : d.Reachable) (side : Side) : (d.leave side).Reachable := by
  have acts : d.act (.emit side 1) = .ok (d.leave side) := rfl
  exact reachable.acted acts

theorem Passes.reachable (passes : Passes d side after) (reachable : d.Reachable) :
    after.Reachable := by
  cases passes with
  | nothing => exact reachable
  | loses => exact reachable.leave side
  | @delivers segment rest c queued received =>
    have performs := perform_segment_eq_ok.mpr ⟨c, received, rfl⟩
    have acts : (d.leave side).act (.deliver side.other (d.endpoint side).emitted.length) =
        .ok ((d.leave side).withEndpoint side.other { d.endpoint side.other with connection := c }) := by
      unfold act
      simp only [Side.other_other, emitted_leave queued, List.getElem?_concat_length,
        endpoint_other_leave, performs, ok_bind]
      rfl
    exact (reachable.leave side).acted acts

theorem InOrder.reachable (ordered : d.InOrder) : d.Reachable := by
  induction ordered with
  | opened first second => exact .opened first second
  | @turned d after next _ turns ih =>
    cases next with
    | call side call =>
      have acts : d.act (.call side call) = .ok after := turns
      exact ih.acted acts
    | pass side lost => exact (pass_passes turns).reachable ih

variable {p : Progress} {sender receiver sender' receiver' : Endpoint}

theorem Flows.inLine_step (flows : Flows p sender receiver) (agrees : Agrees sender receiver)
    (inLine : InLine receiver.connection.receiver sender.connection.waiting)
    (step : Endpoint.Step receiver.emitted sender sender')
    (short : sender'.accepted.length + 2 < SeqNum.half) :
    InLine receiver.connection.receiver sender'.connection.waiting := by
  rcases flows.starts agrees step short with ⟨count, rfl⟩ | ⟨incoming, c, starts⟩
  · -- what leaves in front of a segment is nothing that it has to trail any more
    have split : sender.connection.waiting =
        (sender.connection.queued.take count).map Segment.unstamped ++
          (sender.emit count).connection.waiting := by
      simp only [waiting, Endpoint.emit]
      rw [← List.map_append, ← List.append_assoc, List.take_append_drop]
    rw [split] at inLine
    exact inLine.arrive (fun _ _ keeps _ => keeps) (.refl _)
  · obtain ⟨ended, isn, guided, listens⟩ := starts.guided
    have same : c.waiting = sender.connection.waiting := by
      rw [waiting, waiting, starts.queued_eq, starts.unflushed_eq]
    exact InLine.parts (same ▸ inLine) starts.paces guided flows.keeps listens starts.covered
      starts.parts

theorem inLine_arrive {arrived line : List Segment}
    (inLine : InLine receiver.connection.receiver (arrived.map Segment.unstamped ++ line))
    (vouches : receiver.Vouches) (step : Endpoint.Step arrived receiver receiver') :
    InLine receiver'.connection.receiver line := by
  refine inLine.arrive (fun p short keeps launched => ?_) (vouches.step step).2
  refine (keeps_step keeps (fun segment member => ?_) step short).1
  exact (launched _ (List.mem_map_of_mem member)).of_same rfl rfl rfl rfl

theorem waiting_of_queued {c : Connection} {segment : Segment} {rest : List Segment}
    (queued : c.queued = segment :: rest) :
    c.waiting = [segment].map Segment.unstamped ++ waiting { c with queued := rest } := by
  simp [waiting, queued]

def Lined (d : Duplex) : Prop := ∀ side, (d.endpoint side).accepted.length + 2 < SeqNum.half →
  InLine (d.endpoint side.other).connection.receiver (d.endpoint side).connection.waiting

theorem lined_initial (config config' : Config) (isn isn' : SeqNum) :
    Lined ⟨{ connection := .initial config isn }, { connection := .initial config' isn' }⟩ := by
  intro side _ before segment rest split
  cases side <;> simp [waiting, endpoint, Connection.initial, Sender.initial] at split

theorem Lined.call (lined : d.Lined) (reachable : d.Reachable) {call : Connection.Call}
    (h : d.act (.call side call) = .ok after) : after.Lined := by
  rcases act_call h with rfl | ⟨e, step, rfl⟩
  · exact lined
  intro direction short
  obtain rfl | rfl := direction.eq_or_eq_other side
  · rw [endpoint_withEndpoint] at short ⊢
    rw [endpoint_other_withEndpoint]
    have shorter := (step []).accepted_le
    have near : (d.endpoint direction).accepted.length + 2 < SeqNum.half := by omega
    obtain ⟨p, flows⟩ := reachable.flows direction near
    exact flows.inLine_step (reachable.agrees direction) (lined direction near) (step _) short
  · rw [endpoint_other_withEndpoint] at short ⊢
    rw [Side.other_other, endpoint_withEndpoint]
    have inLine := lined side.other short
    rw [Side.other_other] at inLine
    exact inLine_arrive inLine (reachable.agrees side).sender_vouches (step [])

theorem Lined.leave (lined : d.Lined) (reachable : d.Reachable) (side : Side) :
    (d.leave side).Lined := by
  intro direction short
  obtain rfl | rfl := direction.eq_or_eq_other side
  · rw [endpoint_leave] at short ⊢
    rw [endpoint_other_leave]
    obtain ⟨p, flows⟩ := reachable.flows direction short
    exact flows.inLine_step (reachable.agrees direction) (lined direction short) (.emits 1) short
  · rw [endpoint_other_leave] at short ⊢
    rw [Side.other_other, endpoint_leave]
    have inLine := lined side.other short
    rwa [Side.other_other] at inLine

theorem Lined.passes (lined : d.Lined) (reachable : d.Reachable) (passes : Passes d side after) :
    after.Lined := by
  cases passes with
  | nothing => exact lined
  | loses => exact lined.leave reachable side
  | @delivers segment rest c queued received =>
    have parts := (segmentReceived_handles received).parts
    intro direction short
    obtain rfl | rfl := direction.eq_or_eq_other side
    · rw [endpoint_withEndpoint_other, endpoint_leave] at short ⊢
      rw [endpoint_withEndpoint]
      have inLine := lined direction short
      rw [waiting_of_queued queued] at inLine
      rw [connection_emit queued]
      exact inLine_arrive inLine (reachable.agrees direction).receiver_vouches
        (.receives (List.mem_singleton_self segment) parts)
    · -- the other end says something now, and what it said before has stayed where it was
      have reachable' := reachable.leave side
      have lined' := lined.leave reachable side
      rw [endpoint_withEndpoint] at short ⊢
      rw [Side.other_other, endpoint_withEndpoint_other]
      have near : ((d.leave side).endpoint side.other).accepted.length + 2 < SeqNum.half := by
        rw [endpoint_other_leave]
        exact short
      obtain ⟨p, flows⟩ := reachable'.flows side.other near
      have agrees := reachable'.agrees side.other
      have inLine := lined' side.other near
      rw [Side.other_other, endpoint_other_leave] at flows agrees inLine
      exact flows.inLine_step agrees inLine (.receives (mem_emitted_leave queued) parts) short

theorem InOrder.lined (ordered : d.InOrder) : d.Lined := by
  induction ordered with
  | opened first second =>
    obtain ⟨rfl, -, -⟩ := Connection.new?_eq_ok_iff.mp first
    obtain ⟨rfl, -, -⟩ := Connection.new?_eq_ok_iff.mp second
    exact lined_initial _ _ _ _
  | @turned d after next ordered turns ih =>
    cases next with
    | call side call => exact ih.call ordered.reachable turns
    | pass side lost => exact ih.passes ordered.reachable (pass_passes turns)

end TcpStack.Duplex

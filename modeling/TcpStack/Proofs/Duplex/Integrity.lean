import TcpStack.Proofs.Connection.Stream
import TcpStack.Proofs.Duplex.Basic

/-! What arrives is what was written. Whatever the network does, the bytes put together at one end are
always a beginning of those that the other end accepted, and the end of the stream comes only behind all of
them, as long as the stream is so short that no number of it can be mistaken for another. -/

namespace TcpStack.Duplex

open Connection

/-- One direction: the sender and all that it let out tell the truth about what was written, and the
receiver has put together a beginning of that. -/
structure Conveys (ended : Bool) (isn : SeqNum) (sender receiver : Endpoint) : Prop where
  speaks : sender.connection.Speaks sender.accepted ended isn
  emitted : ∀ segment ∈ sender.emitted, segment.Faithful sender.accepted ended isn
  finished : ended = true → sender.finished = true
  hears : sender.accepted.length + 2 < SeqNum.half →
    receiver.connection.Hears sender.accepted ended isn receiver.read

theorem conveys_initial {config config' : Config} (isn isn' : SeqNum)
    (fits : config.capacity < Cells.limit) (fits' : config'.capacity < Cells.limit) :
    Conveys false (config.isn.getD isn) { connection := .initial config isn }
      { connection := .initial config' isn' } := by
  refine ⟨speaks_initial isn fits, ?_, ?_, fun _ => hears_initial _ fits'⟩
  · intro segment member
    cases member
  · intro finished
    cases finished

variable {ended : Bool} {isn : SeqNum} {sender receiver : Endpoint}

theorem Conveys.speak (conveys : Conveys ended isn sender receiver) {connection : Connection}
    (speaks : connection.Speaks sender.accepted ended isn) :
    Conveys ended isn { sender with connection } receiver :=
  ⟨speaks, conveys.emitted, conveys.finished, conveys.hears⟩

theorem Conveys.write (conveys : Conveys ended isn sender receiver) {bytes : Bytes}
    {stream : ByteStream} {count : Nat} {connection : Connection}
    (accepts : sender.connection.sender.stream.write bytes = .ok (stream, count))
    (parts : Parts none { sender.connection with
      sender := { sender.connection.sender with stream } } connection) :
    Conveys ended isn
      { sender with connection, accepted := sender.accepted ++ bytes.take count } receiver := by
  have closed : ended = true → bytes.take count = [] :=
    conveys.speaks.serves.eq_nil_of_ended accepts
  refine ⟨(conveys.speaks.write accepts).parts parts,
    fun segment member => (conveys.emitted segment member).grow closed, conveys.finished,
    fun short => ?_⟩
  -- The longer stream is short enough, so the shorter one was.
  simp only [List.length_append] at short
  exact (conveys.hears (by omega)).grow closed

theorem Conveys.finish (conveys : Conveys ended isn sender receiver) {connection : Connection}
    (parts : Parts none { sender.connection with sender := { sender.connection.sender with
      stream := sender.connection.sender.stream.finish } } connection) :
    Conveys true isn { sender with connection, finished := true } receiver :=
  ⟨conveys.speaks.finish.parts parts,
    fun segment member => (conveys.emitted segment member).end_stream, fun _ => rfl,
    fun short => (conveys.hears short).end_stream⟩

theorem Conveys.emit (conveys : Conveys ended isn sender receiver) (count : Nat) :
    Conveys ended isn (sender.emit count) receiver := by
  refine ⟨⟨conveys.speaks.serves, fun segment member => ?_⟩, fun segment member => ?_,
    conveys.finished, conveys.hears⟩
  · exact conveys.speaks.queued segment (List.mem_of_mem_drop member)
  · rcases List.mem_append.mp member with old | new
    · exact conveys.emitted segment old
    · exact conveys.speaks.queued segment (List.mem_of_mem_take new)

theorem Conveys.sender_step (conveys : Conveys ended isn sender receiver)
    {arriving : List Segment} {sender' : Endpoint}
    (step : Endpoint.Step arriving sender sender') :
    ∃ ended', Conveys ended' isn sender' receiver := by
  cases step with
  | calls own performs =>
    cases performs with
    | connects acts | aborts acts | ticks _ acts =>
      exact ⟨ended, conveys.speak (conveys.speaks.parts acts.parts)⟩
    | receives => cases own
    | ignoresWrite bytes =>
      have same := conveys.speak conveys.speaks
      refine ⟨ended, ?_⟩
      simpa [Endpoint.after] using same
    | writes accepts replies => exact ⟨ended, conveys.write accepts replies.parts⟩
    | ignoresFinish =>
      exact ⟨ended, conveys.speaks, conveys.emitted, fun _ => rfl, conveys.hears⟩
    | finishes replies => exact ⟨true, conveys.finish replies.parts⟩
    | reads =>
      exact ⟨ended, ⟨conveys.speaks.serves, conveys.speaks.queued⟩, conveys.emitted,
        conveys.finished, conveys.hears⟩
  | receives _ parts => exact ⟨ended, conveys.speak (conveys.speaks.parts parts)⟩
  | emits count => exact ⟨ended, conveys.emit count⟩

theorem Conveys.hear (conveys : Conveys ended isn sender receiver) {receiver' : Endpoint}
    (hears : sender.accepted.length + 2 < SeqNum.half →
      receiver.connection.Hears sender.accepted ended isn receiver.read →
      receiver'.connection.Hears sender.accepted ended isn receiver'.read) :
    Conveys ended isn sender receiver' :=
  ⟨conveys.speaks, conveys.emitted, conveys.finished, fun short => hears short (conveys.hears short)⟩

theorem Conveys.receiver_step (conveys : Conveys ended isn sender receiver)
    {receiver' : Endpoint} (step : Endpoint.Step sender.emitted receiver receiver') :
    Conveys ended isn sender receiver' := by
  cases step with
  | calls own performs =>
    cases performs with
    | connects acts | aborts acts | ticks _ acts =>
      exact conveys.hear fun short hears => hears.parts short quiet acts.parts
    | receives => cases own
    | ignoresWrite | ignoresFinish => exact conveys.hear fun _ hears => hears
    | writes _ replies | finishes replies =>
      exact conveys.hear fun short hears => (hears.withSender _).parts short quiet replies.parts
    | reads takes => exact conveys.hear fun _ hears => hears.reads own takes
  | receives sent parts =>
    refine conveys.hear fun short hears => hears.parts short (fun segment came => ?_) parts
    cases came
    exact conveys.emitted _ sent
  | emits => exact conveys.hear fun _ hears => ⟨hears.follows, hears.assembled⟩

theorem Conveys.spec (conveys : Conveys ended isn sender receiver)
    (short : sender.accepted.length + 2 < SeqNum.half) :
    receiver.assembled <+: sender.accepted ∧
      (receiver.connection.inbound.ended = true →
        sender.finished = true ∧ receiver.assembled = sender.accepted) := by
  obtain ⟨isPrefix, complete⟩ := (conveys.hears short).spec
  refine ⟨isPrefix, fun finished => ?_⟩
  obtain ⟨hended, whole⟩ := complete finished
  exact ⟨conveys.finished hended, whole⟩

theorem Reachable.conveys {d : Duplex} (reachable : d.Reachable) (side : Side) :
    ∃ ended isn, Conveys ended isn (d.endpoint side) (d.endpoint side.other) := by
  refine reachable.induction (P := fun sender receiver =>
    ∃ ended isn, Conveys ended isn sender receiver) ?_ ?_ ?_ side
  · intro config config' isn isn' fits fits'
    exact ⟨_, _, conveys_initial isn isn' fits fits'⟩
  · rintro sender receiver sender' step ⟨ended, isn, conveys⟩ -
    obtain ⟨ended', conveys⟩ := conveys.sender_step step
    exact ⟨ended', isn, conveys⟩
  · rintro sender receiver receiver' step ⟨ended, isn, conveys⟩ -
    exact ⟨ended, isn, conveys.receiver_step step⟩

/-- End-to-end integrity, in the direction from `side` to the other. -/
theorem assembled_isPrefix_accepted {d : Duplex} (reachable : d.Reachable) (side : Side)
    (short : (d.endpoint side).accepted.length < SeqNum.half - 2) :
    (d.endpoint side.other).assembled <+: (d.endpoint side).accepted ∧
      ((d.endpoint side.other).connection.inbound.ended = true →
        (d.endpoint side).finished = true ∧
          (d.endpoint side.other).assembled = (d.endpoint side).accepted) := by
  obtain ⟨ended, isn, conveys⟩ := reachable.conveys side
  exact conveys.spec (by omega)

theorem assembled_though_overtaken : ∃ d : Duplex, d.Reachable ∧
    (d.endpoint .first).accepted.length < SeqNum.half - 2 ∧
    (d.endpoint .second).connection.inbound.ended = true ∧
    (d.endpoint .first).finished = true ∧ (d.endpoint .second).assembled = [97, 98, 99] := by
  have seen : (fun d => (sight d .first, sight d .second)) <$> meeting overtaken =
      .ok (⟨[97, 98, 99], false, some .finWait1⟩, ⟨[], true, some .closeWait⟩) := by
    decide +kernel
  obtain ⟨d, reachable, first, second⟩ := sight_of_meeting seen
  have accepted : (d.endpoint .first).accepted = [97, 98, 99] := congrArg Sight.accepted first
  have ended : (d.endpoint .second).connection.inbound.ended = true :=
    congrArg Sight.ended second
  have short : (d.endpoint .first).accepted.length < SeqNum.half - 2 := by
    rw [accepted]
    decide
  obtain ⟨finished, whole⟩ := (assembled_isPrefix_accepted reachable .first short).2 ended
  exact ⟨d, reachable, short, ended, finished, whole.trans accepted⟩

end TcpStack.Duplex

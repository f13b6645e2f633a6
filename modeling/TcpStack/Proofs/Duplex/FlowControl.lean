import TcpStack.Proofs.Connection.Trace
import TcpStack.Proofs.Duplex.Agreement

/-! A receiver keeps all that its peer may send. Between two ends, whatever the network does, every payload
that comes in is held as a whole afterwards, be it for the first time or once more. Only a byte that probes
a closed window is turned away. -/

namespace TcpStack

namespace Duplex

open Connection Outcome

open Sender (Progress Launched)

/-- One direction: all that the sender lets out was let in by the receiver, which keeps it. -/
structure Flows (p : Progress) (sender receiver : Endpoint) : Prop where
  paces : sender.connection.Paces p sender.accepted receiver.connection.receiver
  emitted : ∀ segment ∈ sender.emitted, Launched p receiver.connection.receiver segment
  keeps : receiver.connection.receiver.Keeps p

theorem flows_initial {config config' : Config} (isn isn' : SeqNum)
    (fits' : config'.capacity < Cells.limit) :
    Flows (.start (config.isn.getD isn)) { connection := .initial config isn }
      { connection := .initial config' isn' } := by
  refine ⟨⟨⟨Sender.tracks_initial _ _ _, ?_, ?_, ?_⟩, ?_⟩, ?_, Receiver.keeps_ofCapacity _ fits'⟩
  · intro segment member
    cases member
  · intro item member
    cases member
  · exact Nat.le_trans (Nat.le_refl 1) (Nat.le_add_right 1 _)
  · intro segment member
    cases member
  · intro segment member
    cases member

variable {p : Progress} {ended : Bool} {isn : SeqNum} {sender receiver : Endpoint}

theorem Flows.sent_le (flows : Flows p sender receiver) : p.sent.length ≤ sender.accepted.length := by
  rw [flows.paces.sender.tracks.sent]
  exact List.length_take_le' _ _

theorem Flows.finished (flows : Flows p sender receiver)
    (finished : receiver.connection.receiver.reassembler.finished = true) : p.fin = true :=
  (flows.keeps.follows.reassembler.finished finished).1

theorem Agrees.guided (agrees : Agrees sender receiver) (conveys : Conveys ended isn sender receiver)
    (short : sender.accepted.length + 2 < SeqNum.half) :
    sender.connection.Guided sender.accepted ended isn receiver.connection.receiver ∧
      Listens sender.accepted isn receiver.connection.receiver :=
  ⟨⟨conveys.speaks, agrees.sender_vouches.connection.ledger, agrees.acknowledged short⟩,
    (conveys.hears short).follows.isn, short, conveys.acknowledged_le short⟩

structure Starts (p : Progress) (sender sender' receiver : Endpoint) (incoming : Option Segment)
    (c : Connection) : Prop where
  emitted_eq : sender'.emitted = sender.emitted
  queued_eq : c.queued = sender.connection.queued
  unflushed_eq : c.sender.queued = sender.connection.sender.queued
  paces : c.Paces p sender'.accepted receiver.connection.receiver
  guided : ∃ ended isn, c.Guided sender'.accepted ended isn receiver.connection.receiver ∧
    Listens sender'.accepted isn receiver.connection.receiver
  covered : ∀ segment, incoming = some segment → receiver.connection.receiver.Covers segment
  parts : Parts incoming c sender'.connection

theorem Flows.starts (flows : Flows p sender receiver) (agrees : Agrees sender receiver)
    {sender' : Endpoint} (step : Endpoint.Step receiver.emitted sender sender')
    (short : sender'.accepted.length + 2 < SeqNum.half) :
    (∃ count, sender' = sender.emit count) ∨
      ∃ incoming c, Starts p sender sender' receiver incoming c := by
  obtain ⟨ended, isn, conveys⟩ := agrees.conveys
  have shorter := step.accepted_le
  obtain ⟨guided, listens⟩ := agrees.guided conveys (by omega)
  have idle : Starts p sender sender receiver none sender.connection :=
    ⟨rfl, rfl, rfl, flows.paces, ⟨ended, isn, guided, listens⟩, quiet, Parts.refl _ _⟩
  cases step with
  | calls own performs =>
    refine Or.inr ⟨none, ?_⟩
    cases performs with
    | connects acts | aborts acts | ticks _ acts => exact ⟨_, { idle with parts := acts.parts }⟩
    | receives => cases own
    | ignoresWrite bytes =>
      refine ⟨sender.connection, ?_⟩
      simpa [Endpoint.after] using idle
    | @writes _ bytes stream count accepts replies =>
      have ledger := (agrees.sender_vouches.connection.withStream stream).ledger
      have heard := Nat.le_trans listens.heard (Nat.add_le_add_right shorter 2)
      exact ⟨{ sender.connection with sender := { sender.connection.sender with stream } }, rfl, rfl,
        rfl, flows.paces.withStream guided.speaks stream (bytes.take count),
        ⟨ended, isn, ⟨guided.speaks.write accepts, ledger, guided.below⟩, listens.same, short, heard⟩,
        quiet, replies.parts⟩
    | ignoresFinish => exact ⟨_, { idle with }⟩
    | finishes replies =>
      have paces := flows.paces.withStream guided.speaks sender.connection.sender.stream.finish []
      rw [List.append_nil] at paces
      have ledger := (agrees.sender_vouches.connection.withStream
        sender.connection.sender.stream.finish).ledger
      exact ⟨{ sender.connection with
          sender := { sender.connection.sender with stream := sender.connection.sender.stream.finish } },
        rfl, rfl, rfl, paces,
        ⟨true, isn, ⟨guided.speaks.finish, ledger, guided.below⟩, listens⟩, quiet, replies.parts⟩
    | @reads _ output _ takes =>
      exact ⟨{ sender.connection with receiver := { sender.connection.receiver with
          reassembler := { sender.connection.receiver.reassembler with output } } },
        rfl, rfl, rfl, ⟨flows.paces.sender, flows.paces.queued⟩, ⟨ended, isn,
        ⟨⟨guided.speaks.serves, guided.speaks.queued⟩, guided.ledger, guided.below⟩, listens⟩, quiet,
        Parts.refl _ _⟩
  | @receives segment connection sent parts =>
    refine Or.inr ⟨some segment, _, { idle with parts := parts, covered := fun segment came => ?_ }⟩
    cases came
    exact agrees.receiver_vouches.emitted _ sent
  | emits count => exact Or.inl ⟨count, rfl⟩

theorem Flows.sender_step (flows : Flows p sender receiver) (agrees : Agrees sender receiver)
    {sender' : Endpoint} (step : Endpoint.Step receiver.emitted sender sender')
    (short : sender'.accepted.length + 2 < SeqNum.half) : ∃ later, Flows later sender' receiver := by
  rcases flows.starts agrees step short with ⟨count, rfl⟩ | ⟨incoming, c, starts⟩
  · refine ⟨p, ⟨flows.paces.sender, fun segment member => ?_⟩, fun segment member => ?_, flows.keeps⟩
    · exact flows.paces.queued segment (List.mem_of_mem_drop member)
    · rcases List.mem_append.mp member with old | new
      · exact flows.emitted segment old
      · exact flows.paces.queued segment (List.mem_of_mem_take new)
  · obtain ⟨ended, isn, guided, listens⟩ := starts.guided
    obtain ⟨later, grows, paces⟩ :=
      starts.paces.parts guided listens flows.finished starts.covered starts.parts
    refine ⟨later, paces, fun segment member => ?_, flows.keeps.grow grows⟩
    exact (flows.emitted segment (starts.emitted_eq ▸ member)).grow grows

theorem keeps_step {arriving : List Segment} {receiver' : Endpoint}
    (keeps : receiver.connection.receiver.Keeps p)
    (launched : ∀ segment ∈ arriving, Launched p receiver.connection.receiver segment)
    (step : Endpoint.Step arriving receiver receiver') (short : p.sent.length + 2 < SeqNum.half) :
    receiver'.connection.receiver.Keeps p ∧
      ∀ i, receiver.connection.receiver.reassembler.Holds i →
        receiver'.connection.receiver.reassembler.Holds i := by
  cases step with
  | calls own performs =>
    cases performs with
    | connects acts | aborts acts | ticks _ acts => exact keeps_parts keeps quiet short acts.parts
    | receives => cases own
    | ignoresWrite | ignoresFinish => exact ⟨keeps, fun _ held => held⟩
    | writes _ replies | finishes replies =>
      have kept := keeps_parts (p := p) (by exact keeps) quiet short replies.parts
      exact kept
    | reads takes =>
      obtain ⟨count, drops, -⟩ := ByteStream.perform_drops keeps.rests.sound own takes
      exact ⟨keeps.withOutput (keeps.rests.drops drops) drops.size_le drops.ended_eq,
        fun _ held => held⟩
  | receives sent parts =>
    refine keeps_parts keeps (fun segment came => ?_) short parts
    cases came
    exact launched _ sent
  | emits => exact ⟨keeps, fun _ held => held⟩

theorem Flows.keeps_step (flows : Flows p sender receiver) {receiver' : Endpoint}
    (step : Endpoint.Step sender.emitted receiver receiver')
    (short : p.sent.length + 2 < SeqNum.half) : receiver'.connection.receiver.Keeps p ∧
      ∀ i, receiver.connection.receiver.reassembler.Holds i →
        receiver'.connection.receiver.reassembler.Holds i :=
  Duplex.keeps_step flows.keeps flows.emitted step short

theorem Flows.receiver_step (flows : Flows p sender receiver) (agrees : Agrees sender receiver)
    {receiver' : Endpoint} (step : Endpoint.Step sender.emitted receiver receiver')
    (short : sender.accepted.length + 2 < SeqNum.half) : Flows p sender receiver' := by
  have advances := (agrees.receiver_vouches.step step).2
  have sent_le := flows.sent_le
  exact ⟨flows.paces.advance advances, fun segment member =>
    (flows.emitted segment member).advance advances, (flows.keeps_step step (by omega)).1⟩

theorem Reachable.flows {d : Duplex} (reachable : d.Reachable) (side : Side)
    (short : (d.endpoint side).accepted.length + 2 < SeqNum.half) :
    ∃ p, Flows p (d.endpoint side) (d.endpoint side.other) := by
  have both := reachable.induction (P := fun sender receiver => Agrees sender receiver ∧
    (sender.accepted.length + 2 < SeqNum.half → ∃ p, Flows p sender receiver)) ?_ ?_ ?_ side
  · exact both.2 short
  · intro config config' isn isn' fits fits'
    exact ⟨agrees_initial isn isn' fits fits', fun _ => ⟨_, flows_initial isn isn' fits'⟩⟩
  · rintro sender receiver sender' step ⟨agrees, flows⟩ -
    refine ⟨agrees.sender_step step, fun short => ?_⟩
    have shorter := step.accepted_le
    obtain ⟨p, flows⟩ := flows (by omega)
    exact flows.sender_step agrees step short
  · rintro sender receiver receiver' step ⟨agrees, flows⟩ -
    refine ⟨agrees.receiver_step step, fun short => ?_⟩
    obtain ⟨p, flows⟩ := flows short
    exact ⟨p, flows.receiver_step agrees step short⟩

theorem Flows.acknowledged_le (flows : Flows p sender receiver)
    (serves : sender.connection.sender.Serves sender.accepted ended isn) :
    receiver.connection.receiver.acknowledged ≤ sender.connection.sender.nextSeqno := by
  have tracks := flows.paces.sender.tracks
  unfold Receiver.acknowledged Receiver.ackPosition
  split
  · rename_i known
    have opened := (tracks.inside 0 (flows.keeps.opened (Option.isSome_iff_ne_none.mp known))).1
    have next_eq := serves.nextSeqno_eq opened
    have next_le := flows.keeps.follows.reassembler.next_le
    rw [tracks.length_sent serves] at next_le
    rw [next_eq]
    cases finished : receiver.connection.receiver.reassembler.finished with
    | false => exact Nat.le_add_right_of_le (Nat.succ_le_succ next_le)
    | true =>
      rw [← tracks.fin, flows.finished finished]
      exact Nat.succ_le_succ (Nat.succ_le_succ next_le)
  · exact Nat.zero_le _

theorem Flows.acceptsAck (flows : Flows p sender receiver) (agrees : Agrees sender receiver)
    (short : sender.accepted.length + 2 < SeqNum.half) {segment : Segment}
    (sent : segment ∈ receiver.emitted) : sender.connection.acceptsAck segment = .ok true := by
  obtain ⟨ended, isn, conveys⟩ := agrees.conveys
  have serves := conveys.speaks.serves
  have nextSeqno_le := serves.nextSeqno_le
  have acknowledged_le := flows.acknowledged_le serves
  have highestAck_le := agrees.sender_vouches.connection.ledger.highestAck_le
  have far := SeqNum.half_add_cycles_le
  unfold Connection.acceptsAck
  split
  · rename_i ack
    obtain ⟨position, ackno, position_le⟩ :=
      conveys.offered short (agrees.receiver_vouches.emitted segment sent) ack
    obtain ⟨found, hunwrap⟩ := SeqNum.unwrap_returns segment.ackno sender.connection.sender.isn
      (show sender.connection.sender.highestAck + 2 * SeqNum.cycle ≤ Count.bound by omega)
    have found_eq : found = position := by
      rw [ackno, serves.isn_eq] at hunwrap
      exact SeqNum.unwrap_wrap_of_lt_half (by omega) (by omega) hunwrap
    unfold Sender.ackIsLegal
    rw [hunwrap, ok_bind, pure_eq_ok, decide_eq_true_eq]
    omega
  · rfl

theorem accepted_after (e : Endpoint) (call : Connection.Call) (connection : Connection) (reply : Reply) :
    (e.after call connection reply).accepted = e.accepted ++ call.accepts reply := by
  cases call with
  | write bytes =>
    cases reply with
    | count accepted => rfl
    | done | bytes | verdict => exact (List.append_nil _).symm
  | connect | finish | abort | segment | tick | inbound => exact (List.append_nil _).symm

theorem connection_after (e : Endpoint) (call : Connection.Call) (connection : Connection)
    (reply : Reply) : (e.after call connection reply).connection = connection := by
  unfold Endpoint.after
  split <;> rfl

theorem Conveys.written_step (conveys : Conveys ended isn sender receiver) {arriving : List Segment}
    {sender' : Endpoint} (step : Endpoint.Step arriving sender sender')
    (counted : sender.connection.outbound.written = sender.accepted.length) :
    sender'.connection.outbound.written = sender'.accepted.length := by
  have speaks := conveys.speaks
  cases step with
  | calls own performs =>
    obtain ⟨_, -, written_eq⟩ := speaks.performs performs
    rw [connection_after, accepted_after, List.length_append, ← counted]
    exact written_eq
  | receives _ parts => exact (speaks.written_eq parts).trans counted
  | emits => exact counted

theorem Reachable.written {d : Duplex} (reachable : d.Reachable) (side : Side) :
    (d.endpoint side).connection.outbound.written = (d.endpoint side).accepted.length := by
  have both := reachable.induction (P := fun sender receiver =>
    (∃ ended isn, Conveys ended isn sender receiver) ∧
      sender.connection.outbound.written = sender.accepted.length) ?_ ?_ ?_ side
  · exact both.2
  · intro config config' isn isn' fits fits'
    exact ⟨⟨_, _, conveys_initial isn isn' fits fits'⟩, rfl⟩
  · rintro sender receiver sender' step ⟨⟨ended, isn, conveys⟩, counted⟩ -
    obtain ⟨ended', conveys'⟩ := conveys.sender_step step
    exact ⟨⟨ended', isn, conveys'⟩, conveys.written_step step counted⟩
  · rintro sender receiver receiver' step ⟨⟨ended, isn, conveys⟩, counted⟩ -
    exact ⟨⟨ended, isn, conveys.receiver_step step⟩, counted⟩

theorem Reachable.runs {d : Duplex} (reachable : d.Reachable) (side : Side)
    (short : (d.endpoint side).accepted.length + 2 < SeqNum.half) :
    ∃ ended isn, (d.endpoint side).connection.sender.Runs (d.endpoint side).accepted ended isn := by
  have agrees := reachable.agrees side
  have far := SeqNum.half_add_cycles_le
  obtain ⟨ended, isn, conveys⟩ := agrees.conveys
  exact ⟨ended, isn, conveys.speaks.serves, agrees.sender_vouches.connection.ledger,
    Nat.le_of_eq (reachable.written side), by omega⟩

theorem Flows.kept (flows : Flows p sender receiver) {segment : Segment} {after : Connection}
    (sent : segment ∈ sender.emitted) (short : sender.accepted.length + 2 < SeqNum.half)
    (active : receiver.connection.active = true) (known : receiver.connection.receiver.isn ≠ none)
    (plain : segment.rst = false) (some : segment.payload ≠ [])
    (legal : receiver.connection.acceptsAck segment = .ok true)
    (h : (receiver.connection.segmentReceived segment).result = .ok after) :
    ∃ index, segment.seqno = SeqNum.wrap (index + 1) p.isn ∧ p.sent.HasAt index segment.payload ∧
      ((∀ i, i < segment.payload.length → after.receiver.reassembler.Holds (index + i)) ∨
        receiver.connection.receiver.window = 0 ∧ segment.payload.length = 1 ∧
          index = receiver.connection.receiver.reassembler.nextIndex) := by
  have sent_le := flows.sent_le
  have near : p.sent.length + 2 < SeqNum.half := by omega
  have launched := flows.emitted segment sent
  obtain ⟨middle, accepted, takes, replies⟩ :=
    (segmentReceived_handles h).takes_payload active known plain some legal
  obtain ⟨-, stays⟩ := keeps_parts (flows.keeps.takes launched near takes)
    quiet near replies
  obtain ⟨index, seqno, piece, held | probes⟩ := flows.keeps.kept launched near known some takes
  · exact ⟨index, seqno, piece, Or.inl fun i inside => stays _ (held i inside)⟩
  · exact ⟨index, seqno, piece, Or.inr probes⟩

variable {d : Duplex} {side : Side}

theorem Reachable.acceptsAck (reachable : d.Reachable)
    (short : (d.endpoint side.other).accepted.length + 2 < SeqNum.half) {segment : Segment}
    (sent : segment ∈ (d.endpoint side).emitted) :
    (d.endpoint side.other).connection.acceptsAck segment = .ok true := by
  obtain ⟨p, flows⟩ := reachable.flows side.other short
  have agrees := reachable.agrees side.other
  rw [Side.other_other] at flows agrees
  exact flows.acceptsAck agrees short sent

theorem Reachable.act_holds (reachable : d.Reachable)
    (short : (d.endpoint side).accepted.length + 2 < SeqNum.half) {event : Event} {later : Duplex}
    (acts : d.act event = .ok later) (i : Nat)
    (held : (d.endpoint side.other).connection.receiver.reassembler.Holds i) :
    (later.endpoint side.other).connection.receiver.reassembler.Holds i := by
  obtain ⟨p, flows⟩ := reachable.flows side short
  have sent_le := flows.sent_le
  rcases act_cases acts with rfl | ⟨actor, e, step, rfl⟩
  · exact held
  cases actor <;> cases side
  all_goals first | exact (flows.keeps_step step (by omega)).2 i held | exact held

/-- A receiver keeps all that its peer may send. A payload of `side` that comes in at the other end has its
bytes put together there or pending afterwards, unless it is a single byte that probes a closed window,
and nothing that is held is lost by anything that happens. -/
theorem keeps_what_is_sent {d : Duplex} (reachable : d.Reachable)
    (short : ∀ side, (d.endpoint side).accepted.length < SeqNum.half - 2) (side : Side) :
    (∀ segment ∈ (d.endpoint side).emitted,
      (d.endpoint side.other).connection.active = true →
      (d.endpoint side.other).connection.receiver.isn ≠ none →
      segment.rst = false → segment.payload ≠ [] →
      ∃ after index,
        ((d.endpoint side.other).connection.segmentReceived segment).result = .ok after ∧
        segment.seqno = SeqNum.wrap (index + 1) (d.endpoint side).connection.sender.isn ∧
        (d.endpoint side).accepted.HasAt index segment.payload ∧
        ((∀ i, index ≤ i → i < index + segment.payload.length →
          i < after.receiver.reassembler.nextIndex ∨
            ∃ fragment ∈ after.receiver.reassembler.pending,
              fragment.start ≤ i ∧ i < fragment.stop) ∨
          (d.endpoint side.other).connection.receiver.window = 0 ∧ segment.payload.length = 1 ∧
            index = (d.endpoint side.other).connection.receiver.reassembler.nextIndex)) ∧
    ∀ event later, d.act event = .ok later → ∀ i,
      (d.endpoint side.other).connection.receiver.reassembler.Holds i →
        (later.endpoint side.other).connection.receiver.reassembler.Holds i := by
  have near (side : Side) : (d.endpoint side).accepted.length + 2 < SeqNum.half := by
    have bound := short side
    omega
  refine ⟨fun segment sent active known plain some => ?_, fun event later acts =>
    reachable.act_holds (near side) acts⟩
  obtain ⟨p, flows⟩ := reachable.flows side (near side)
  obtain ⟨ended, isn, runs⟩ := reachable.runs side.other (near side.other)
  have short_sent := Nat.lt_of_le_of_lt (Nat.add_le_add_right flows.sent_le 2) (near side)
  obtain ⟨after, h⟩ :=
    segmentReceived_returns flows.keeps (flows.emitted segment sent) short_sent runs
  obtain ⟨index, seqno, piece, kept⟩ := flows.kept sent (near side) active known plain some
    (reachable.acceptsAck (near side.other) sent) h
  have tracks := flows.paces.sender.tracks
  refine ⟨after, index, h, tracks.isn ▸ seqno, ?_, kept.imp_left fun held i first last => ?_⟩
  · -- what was sent is a beginning of what was accepted
    have grown :=
      piece.grow ((d.endpoint side).accepted.drop (d.endpoint side).connection.sender.cursor)
    rwa [tracks.sent, List.take_append_drop] at grown
  · have here := Reassembler.holds_iff.mp (held (i - index) (by omega))
    rwa [Nat.add_sub_cancel' first] at here

def hurried : List Event :=
  [.call .first .connect, .emit .first 1, .deliver .second 0, .emit .second 1, .deliver .first 0,
    .call .first (.write [97, 98, 99]), .call .first (.write [100, 101]), .emit .first 9]

theorem holds_though_overtaking : ∃ (d : Duplex) (segment : Segment) (after : Connection),
    d.Reachable ∧ (∀ side, (d.endpoint side).accepted.length < SeqNum.half - 2) ∧
    segment ∈ (d.endpoint .first).emitted ∧ segment.payload = [100, 101] ∧
    ((d.endpoint .second).connection.segmentReceived segment).result = .ok after ∧
    ∀ i, 3 ≤ i → i < 5 → i < after.receiver.reassembler.nextIndex ∨
      ∃ fragment ∈ after.receiver.reassembler.pending, fragment.start ≤ i ∧ i < fragment.stop := by
  have seen : (fun d : Duplex => ((d.endpoint .first).accepted, (d.endpoint .second).accepted,
      (d.endpoint .first).emitted[3]?, (d.endpoint .second).connection.active,
      (d.endpoint .second).connection.receiver.isn)) <$> meeting hurried =
      .ok ([97, 98, 99, 100, 101], [],
        some { ack := true, seqno := ⟨2⟩, ackno := ⟨5001⟩, window := 8, payload := [100, 101] },
        true, some ⟨4294967294⟩) := by
    decide +kernel
  obtain ⟨d, met, look⟩ := map_eq_ok.mp seen
  simp only [Prod.mk.injEq] at look
  obtain ⟨accepted, accepted', emitted, active, known⟩ := look
  have short (side : Side) : (d.endpoint side).accepted.length < SeqNum.half - 2 := by
    cases side with
    | first =>
      rw [accepted]
      decide
    | second =>
      rw [accepted']
      decide
  have reachable := reachable_meeting met
  have sent := List.mem_of_getElem? emitted
  obtain ⟨after, index, h, -, piece, kept⟩ := (keeps_what_is_sent reachable short .first).1 _ sent
    active (by rw [show Side.first.other = Side.second from rfl, known]; simp) rfl (by simp)
  refine ⟨d, _, after, reachable, short, sent, rfl, h, ?_⟩
  have here : index = 3 := by
    rw [accepted] at piece
    have stop_le := piece.stop_le (by simp)
    have value := piece 0 (by decide)
    obtain rfl | rfl | rfl | rfl : index = 0 ∨ index = 1 ∨ index = 2 ∨ index = 3 := by
      simp at stop_le
      omega
    all_goals simp at value ⊢
  rcases kept with held | ⟨-, one, -⟩
  · subst here
    exact held
  · simp at one

end Duplex
end TcpStack

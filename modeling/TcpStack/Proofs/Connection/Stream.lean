import TcpStack.Proofs.Connection.Parts
import TcpStack.Proofs.Receiver.Advance
import TcpStack.Proofs.Sender.Cursor

/-! The two streams of a connection. As a speaker it lets nothing out but the truth about the bytes that
its application wrote; as a hearer it puts together nothing but the stream of the peer, as long as what
comes in is the truth about that. Both are kept by every part of its work. -/

namespace TcpStack.Connection

open Outcome

theorem faithful_of_stamp {accepted : Bytes} {ended : Bool} {isn : SeqNum} {r : Receiver}
    {segment stamped : Segment} (faithful : segment.Faithful accepted ended isn)
    (h : r.stamp segment = .ok stamped) : stamped.Faithful accepted ended isn := by
  obtain ⟨syn, seqno, payload, fin, -⟩ := Receiver.stamp_same h
  exact faithful.of_same syn seqno payload fin

structure Speaks (accepted : Bytes) (ended : Bool) (isn : SeqNum) (c : Connection) : Prop where
  serves : c.sender.Serves accepted ended isn
  queued : ∀ segment ∈ c.queued, segment.Faithful accepted ended isn

theorem speaks_initial {config : Config} (isn : SeqNum) (fits : config.capacity < Cells.limit) :
    Speaks [] false (config.isn.getD isn) (initial config isn) := by
  refine ⟨Sender.serves_initial _ fits, ?_⟩
  intro segment member
  cases member

variable {accepted : Bytes} {ended : Bool} {isn : SeqNum} {incoming : Option Segment}
  {c after : Connection}

theorem Speaks.part (speaks : Speaks accepted ended isn c) (part : Part incoming c after) :
    Speaks accepted ended isn after := by
  have serves := speaks.serves
  cases part with
  | sends step => exact ⟨serves.step step, speaks.queued⟩
  | takes | ages | checks | expires => exact ⟨serves, speaks.queued⟩
  | flushes stamps =>
    refine ⟨serves.of_same rfl rfl rfl rfl (by simp) serves.inFlight, fun segment member => ?_⟩
    rcases List.mem_append.mp member with old | new
    · exact speaks.queued segment old
    · obtain ⟨plain, inside, hstamp⟩ := mem_of_mapM stamps new
      exact faithful_of_stamp (serves.queued plain inside) hstamp
  | replaces =>
    refine ⟨serves.of_same rfl rfl rfl rfl (fun segment member => ?_) serves.inFlight,
      speaks.queued⟩
    exact List.mem_singleton.mp member ▸ serves.nextWire_bare rfl rfl rfl rfl
  | kills => exact ⟨serves.fail, speaks.queued⟩

theorem Speaks.parts (speaks : Speaks accepted ended isn c) (parts : Parts incoming c after) :
    Speaks accepted ended isn after :=
  parts.induction speaks fun _ _ part speaks => speaks.part part

theorem Speaks.write (speaks : Speaks accepted ended isn c) {bytes : Bytes} {stream : ByteStream}
    {count : Nat} (h : c.sender.stream.write bytes = .ok (stream, count)) :
    Speaks (accepted ++ bytes.take count) ended isn
      { c with sender := { c.sender with stream } } := by
  have closed : ended = true → bytes.take count = [] := speaks.serves.eq_nil_of_ended h
  exact ⟨speaks.serves.write h, fun segment member => (speaks.queued segment member).grow closed⟩

theorem Speaks.finish (speaks : Speaks accepted ended isn c) : Speaks accepted true isn
    { c with sender := { c.sender with stream := c.sender.stream.finish } } :=
  ⟨speaks.serves.finish, fun segment member => (speaks.queued segment member).end_stream⟩

structure Hears (whole : Bytes) (ended : Bool) (peer : SeqNum) (read : Bytes) (c : Connection) :
    Prop where
  follows : c.receiver.Follows whole ended peer
  assembled : read ++ c.inbound.toList = whole.take c.receiver.reassembler.nextIndex

theorem hears_initial {config : Config} {isn : SeqNum} (peer : SeqNum)
    (fits : config.capacity < Cells.limit) : Hears [] false peer [] (initial config isn) := by
  refine ⟨⟨Reassembler.follows_ofCapacity fits, ?_⟩, ?_⟩
  · intro number known
    cases known
  · exact ByteStream.toList_ofCapacity config.capacity

variable {whole read : Bytes} {peer : SeqNum}

theorem Hears.spec (hears : Hears whole ended peer read c) :
    read ++ c.inbound.toList <+: whole ∧
      (c.inbound.ended = true → ended = true ∧ read ++ c.inbound.toList = whole) := by
  rw [hears.assembled]
  refine ⟨List.take_prefix _ _, fun finished => ?_⟩
  obtain ⟨hended, hnext⟩ := hears.follows.reassembler.finished finished
  exact ⟨hended, by rw [hnext, List.take_length]⟩

theorem Hears.withSender (hears : Hears whole ended peer read c) (sender : Sender) :
    Hears whole ended peer read { c with sender } :=
  ⟨hears.follows, hears.assembled⟩

theorem Hears.grow (hears : Hears whole ended peer read c) {more : Bytes}
    (open' : ended = true → more = []) : Hears (whole ++ more) ended peer read c := by
  refine ⟨⟨hears.follows.reassembler.grow open', hears.follows.isn⟩, ?_⟩
  rw [hears.assembled, List.take_append_of_le_length hears.follows.reassembler.next_le]

theorem Hears.end_stream (hears : Hears whole ended peer read c) :
    Hears whole true peer read c := by
  cases ended with
  | false => exact ⟨⟨hears.follows.reassembler.end_stream, hears.follows.isn⟩, hears.assembled⟩
  | true => exact hears

theorem Hears.takes (hears : Hears whole ended peer read c) {segment : Segment}
    {receiver : Receiver} {accepted : Bool} (short : whole.length + 2 < SeqNum.half)
    (faithful : segment.Faithful whole ended peer)
    (takes : c.receiver.Takes segment receiver accepted) :
    Hears whole ended peer read { c with receiver } := by
  have sound := hears.follows.reassembler.sound
  obtain ⟨delivered, goes, pieces⟩ := takes.spec sound
  obtain ⟨piece, follows⟩ := pieces whole ended peer short faithful hears.follows
  refine ⟨follows, ?_⟩
  have output_eq : receiver.stream.toList = c.inbound.toList ++ delivered := goes.output_eq
  change read ++ receiver.stream.toList = whole.take receiver.reassembler.nextIndex
  rw [output_eq, ← List.append_assoc, hears.assembled, goes.next_eq]
  exact piece.take_append hears.follows.reassembler.next_le

theorem Hears.part (hears : Hears whole ended peer read c) (short : whole.length + 2 < SeqNum.half)
    (faithful : ∀ segment, incoming = some segment → segment.Faithful whole ended peer)
    (part : Part incoming c after) : Hears whole ended peer read after := by
  cases part with
  | sends | flushes | replaces | ages | checks | expires => exact ⟨hears.follows, hears.assembled⟩
  | takes came takes => exact hears.takes short (faithful _ came) takes
  | kills =>
    have follows := hears.follows.reassembler
    exact ⟨⟨follows.withOutput follows.sound.fail rfl, hears.follows.isn⟩, hears.assembled⟩

theorem Hears.parts (hears : Hears whole ended peer read c) (short : whole.length + 2 < SeqNum.half)
    (faithful : ∀ segment, incoming = some segment → segment.Faithful whole ended peer)
    (parts : Parts incoming c after) : Hears whole ended peer read after :=
  parts.induction hears fun _ _ part hears => hears.part short faithful part

theorem Hears.reads (hears : Hears whole ended peer read c) {call : ByteStream.Call}
    {output : ByteStream} {reply : Reply} (reads : call.reads = true)
    (h : c.inbound.perform call = .ok (output, reply)) :
    Hears whole ended peer (read ++ call.takes c.inbound) { c with receiver := { c.receiver with
      reassembler := { c.receiver.reassembler with output } } } := by
  have follows := hears.follows.reassembler
  have sound : c.inbound.Sound := follows.sound
  obtain ⟨count, drops, taken⟩ := ByteStream.perform_drops sound reads h
  refine ⟨⟨follows.withOutput drops.sound drops.ended_eq, hears.follows.isn⟩, ?_⟩
  change read ++ call.takes c.inbound ++ output.toList = whole.take c.receiver.reassembler.nextIndex
  rw [taken, drops.toList_eq, List.append_assoc, List.take_append_drop]
  exact hears.assembled

end TcpStack.Connection

import TcpStack.Proofs.Connection.Receive
import TcpStack.Sender.Call

/-! What each part of a connection does, exactly: to its sender, to its receiver and to its queue. Beside it stands
what is asked of the sender meanwhile, call by call; to look up whether an acknowledgment is legal changes nothing,
and is not counted. A function of the connection is taken apart here and nowhere else. -/

namespace TcpStack.Connection

open Outcome

variable {c after : Connection} {sender : Sender} {segment : Segment} {bytes : Bytes} {count elapsed : Nat}
  {cause : Option ResetCause} {asked : List Sender.Call} {call : Call} {reply : Reply}

/-- All that the sender has queued goes behind what waits, with the acknowledgment fields of this moment. -/
inductive Flushes (c : Connection) : Connection → Prop
  | moves {stamped : List Segment} (stamps : c.sender.queued.mapM c.receiver.stamp = .ok stamped) :
      Flushes c { c with sender := { c.sender with queued := [] }, queued := c.queued ++ stamped }

/-- The connection ends with this RST, in place of whatever its sender had queued. -/
structure Resets (c : Connection) (cause : Option ResetCause) (rst : Segment) (after : Connection) :
    Prop where
  stamps : c.receiver.stamp { rst := true, seqno := c.sender.nextWire } = .ok rst
  after_eq : after = kill
    { c with sender := { c.sender with queued := [] }, queued := c.queued ++ [rst] } cause

inductive Connects (c : Connection) : List Sender.Call → Connection → Prop
  | settled (settled : c.active = false ∨ c.opened = true) : Connects c [] c
  | opens {sender : Sender} {after : Connection} (active : c.active = true) (fresh : c.opened = false)
      (fills : c.sender.fillWindow.result = .ok sender) (flushes : Flushes { c with sender } after) :
      Connects c [.fill] after

inductive Spreads (c : Connection) : List Sender.Call → Connection → Prop
  | waits (fresh : c.opened = false) : Spreads c [] c
  | sends {sender : Sender} {after : Connection} (opened : c.opened = true)
      (fills : c.sender.fillWindow.result = .ok sender) (flushes : Flushes { c with sender } after) :
      Spreads c [.fill] after

inductive Writes (c : Connection) (bytes : Bytes) : List Sender.Call → Connection → Nat → Prop
  | sleeps (inactive : c.active = false) : Writes c bytes [] c 0
  | accepts {stream : ByteStream} {count : Nat} {asked : List Sender.Call} {after : Connection}
      (active : c.active = true) (writes : c.sender.stream.write bytes = .ok (stream, count))
      (spreads : Spreads { c with sender := { c.sender with stream } } asked after) :
      Writes c bytes (.stream (.write bytes) :: asked) after count

inductive Finishes (c : Connection) : List Sender.Call → Connection → Prop
  | sleeps (inactive : c.active = false) : Finishes c [] c
  | ends {asked : List Sender.Call} {after : Connection} (active : c.active = true)
      (spreads : Spreads { c with sender := { c.sender with stream := c.sender.stream.finish } } asked after) :
      Finishes c (.stream .finish :: asked) after

inductive Aborts (c : Connection) : Connection → Prop
  | sleeps (inactive : c.active = false) : Aborts c c
  | ends {rst : Segment} {after : Connection} (active : c.active = true)
      (resets : Resets c none rst after) : Aborts c after

inductive Hearing (s : Sender) (segment : Segment) : List Sender.Call → Sender → Prop
  | nothing (plain : segment.ack = false) : Hearing s segment [] s
  | acknowledgment {heard : Sender} {legal : Bool} (ack : segment.ack = true)
      (hears : (s.ackReceived segment.ackno segment.window).result = .ok (heard, legal)) :
      Hearing s segment [.ack segment.ackno segment.window] heard

inductive Acknowledges (c : Connection) : List Sender.Call → Connection → Prop
  | ended (inactive : c.active = false) : Acknowledges c [] c
  | answers {after : Connection} (active : c.active = true) (none : c.sender.queued = [])
      (flushes : Flushes { c with sender := c.sender.sendEmpty } after) : Acknowledges c [.sendEmpty] after
  | sends {after : Connection} (active : c.active = true) (some : c.sender.queued ≠ [])
      (flushes : Flushes c after) : Acknowledges c [] after

inductive Responds (c : Connection) (segment : Segment) : List Sender.Call → Connection → Prop
  | ended (inactive : c.active = false) : Responds c segment [] c
  | answers {sender : Sender} {after : Connection} (active : c.active = true)
      (fills : c.sender.fillWindow.result = .ok sender) (takes : 0 < segment.sequenceLength)
      (none : sender.queued = []) (flushes : Flushes { c with sender := sender.sendEmpty } after) :
      Responds c segment [.fill, .sendEmpty] after
  | sends {sender : Sender} {after : Connection} (active : c.active = true)
      (fills : c.sender.fillWindow.result = .ok sender)
      (said : 0 < segment.sequenceLength → sender.queued ≠ []) (flushes : Flushes { c with sender } after) :
      Responds c segment [.fill] after

inductive ReceivesListening (c : Connection) (segment : Segment) : List Sender.Call → Connection → Prop
  | ignores (other : segment.rst = true ∨ segment.ack = true ∨ segment.syn = false) :
      ReceivesListening c segment [] c
  | takes {receiver : Receiver} {accepted : Bool} {asked : List Sender.Call} {after : Connection}
      (rst : segment.rst = false) (plain : segment.ack = false) (syn : segment.syn = true)
      (receives : (c.receiver.segmentReceived segment).result = .ok (receiver, accepted))
      (connects : Connects (checked { c with receiver }) asked after) : ReceivesListening c segment asked after

inductive ReceivesSynSent (c : Connection) (segment : Segment) : List Sender.Call → Connection → Prop
  | ignoresRst (rst : segment.rst = true) (answers : c.answersOurs segment = .ok false) :
      ReceivesSynSent c segment [] c
  | ends (rst : segment.rst = true) (answers : c.answersOurs segment = .ok true) :
      ReceivesSynSent c segment [.stream .fail] (c.kill (some .byPeer))
  | ignores (rst : segment.rst = false) (other : segment.syn = false ∨ c.acceptsAck segment = .ok false) :
      ReceivesSynSent c segment [] c
  | takes {receiver : Receiver} {accepted : Bool} {sender : Sender} {heard asked : List Sender.Call}
      {after : Connection} (rst : segment.rst = false) (syn : segment.syn = true)
      (legal : c.acceptsAck segment = .ok true)
      (receives : (c.receiver.segmentReceived segment).result = .ok (receiver, accepted))
      (hears : Hearing c.sender segment heard sender)
      (acknowledges : Acknowledges (checked { c with receiver, sender }) asked after) :
      ReceivesSynSent c segment (heard ++ asked) after

inductive ReceivesSynchronized (c : Connection) (segment : Segment) : List Sender.Call → Connection → Prop
  | ignores (rst : segment.rst = true) (apart : (c.receiver.inWindow segment) = .ok false)
      (quiet : c.isProbe segment = .ok false) : ReceivesSynchronized c segment [] c
  | ends {inside probe : Bool} (rst : segment.rst = true) (place : c.receiver.inWindow segment = .ok inside)
      (probes : c.isProbe segment = .ok probe) (counts : inside = true ∨ probe = true) :
      ReceivesSynchronized c segment [.stream .fail] (c.kill (some .byPeer))
  | answers {inside legal probe : Bool} {after : Connection} (rst : segment.rst = false)
      (place : c.receiver.inWindow segment = .ok inside) (probes : c.isProbe segment = .ok probe)
      (accepts : c.acceptsAck segment = .ok legal) (reason : legal = false ∨ probe = true)
      (flushes : Flushes { c with sender := c.sender.sendEmpty } after) :
      ReceivesSynchronized c segment [.sendEmpty] after
  | takes {inside : Bool} {receiver : Receiver} {accepted : Bool} {sender : Sender}
      {heard asked : List Sender.Call} {after : Connection} (rst : segment.rst = false)
      (place : c.receiver.inWindow segment = .ok inside) (quiet : c.isProbe segment = .ok false)
      (legal : c.acceptsAck segment = .ok true) (hears : Hearing c.sender segment heard sender)
      (receives : (c.receiver.segmentReceived segment).result = .ok (receiver, accepted))
      (responds : Responds (checked { c with receiver, sender }) segment asked after) :
      ReceivesSynchronized c segment (heard ++ asked) after

inductive Receives (c : Connection) (segment : Segment) : List Sender.Call → Connection → Prop
  | sleeps (inactive : c.active = false) : Receives c segment [] c
  | listening {asked : List Sender.Call} {after : Connection} (active : c.active = true)
      (unknown : c.receiver.isn = none) (fresh : c.opened = false)
      (receives : ReceivesListening { c with idle := 0 } segment asked after) : Receives c segment asked after
  | synSent {asked : List Sender.Call} {after : Connection} (active : c.active = true)
      (unknown : c.receiver.isn = none) (opened : c.opened = true)
      (receives : ReceivesSynSent { c with idle := 0 } segment asked after) : Receives c segment asked after
  | synchronized {asked : List Sender.Call} {after : Connection} (active : c.active = true)
      (known : c.receiver.isn ≠ none)
      (receives : ReceivesSynchronized { c with idle := 0 } segment asked after) : Receives c segment asked after

def expired (c : Connection) : Bool :=
  c.summary.named = some .timeWait && timeWaitFactor * c.config.timeout ≤ c.idle

/-- What time does to a connection: nothing, or it gives up with an RST, or it sends what its sender had to send
again, if anything, and may have waited long enough. -/
inductive Elapses (c : Connection) (elapsed : Nat) : Connection → Prop
  | sleeps (inactive : c.active = false) : Elapses c elapsed c
  | givesUp {aged : Sender} {rst : Segment} {after : Connection} (active : c.active = true)
      (short : c.idle + elapsed < Count.bound) (ticks : (c.sender.tick elapsed).result = .ok aged)
      (many : c.config.maxResends < aged.resends)
      (resets : Resets { c with idle := c.idle + elapsed, sender := aged } (some .timedOut) rst after) :
      Elapses c elapsed after
  | goesOn {aged : Sender} {flushed : Connection} (active : c.active = true)
      (short : c.idle + elapsed < Count.bound) (ticks : (c.sender.tick elapsed).result = .ok aged)
      (few : aged.resends ≤ c.config.maxResends)
      (flushes : Flushes { c with idle := c.idle + elapsed, sender := aged } flushed)
      (fits : flushed.summary.named = some .timeWait → timeWaitFactor * flushed.config.timeout < Count.bound) :
      Elapses c elapsed { flushed with active := !flushed.expired }

/-- A call on the connection, and what it asks of the sender. The RST that ends a connection is its own. -/
inductive Does (c : Connection) : Call → List Sender.Call → Connection → Reply → Prop
  | connects {asked : List Sender.Call} {after : Connection} (connects : Connects c asked after) :
      Does c .connect asked after .done
  | writes {bytes : Bytes} {asked : List Sender.Call} {after : Connection} {count : Nat}
      (writes : Writes c bytes asked after count) : Does c (.write bytes) asked after (.count count)
  | finishes {asked : List Sender.Call} {after : Connection} (finishes : Finishes c asked after) :
      Does c .finish asked after .done
  | aborts {after : Connection} (aborts : Aborts c after) : Does c .abort [] after .done
  | receives {segment : Segment} {asked : List Sender.Call} {after : Connection}
      (receives : Receives c segment asked after) : Does c (.segment segment) asked after .done
  | ticks {elapsed : Nat} {after : Connection} (elapses : Elapses c elapsed after) :
      Does c (.tick elapsed) (if c.active then [.tick elapsed] else []) after .done
  | reads {call : ByteStream.Call} {output : ByteStream} {reply : Reply}
      (takes : c.inbound.perform call = .ok (output, reply)) :
      Does c (.inbound call) [] { c with receiver := { c.receiver with
        reassembler := { c.receiver.reassembler with output } } } reply

section parts

theorem flush_eq_ok_iff : c.flush.result = .ok after ↔ Flushes c after := by
  unfold flush Sender.drain
  simp only [Run.result_bind, Run.result_lift, Run.result_sayAll, Run.result_pure, bind_eq_ok, Except.ok.injEq]
  constructor
  · rintro ⟨stamped, stamps, _, -, rfl⟩
    exact .moves stamps
  · rintro ⟨stamps⟩
    exact ⟨_, stamps, (), trivial, rfl⟩

theorem Flushes.active_eq (flushes : Flushes c after) : after.active = c.active := by
  cases flushes
  rfl

theorem reset_eq_ok_iff : (c.reset cause).result = .ok after ↔ ∃ rst, Resets c cause rst after := by
  unfold reset
  simp only [Run.result_bind, Run.result_pure, bind_eq_ok, flush_eq_ok_iff, Except.ok.injEq]
  constructor
  · rintro ⟨_, ⟨stamps⟩, rfl⟩
    simp only [List.mapM_cons, List.mapM_nil, bind_eq_ok, pure_eq_ok] at stamps
    obtain ⟨rst, stamps, _, rfl, rfl⟩ := stamps
    exact ⟨rst, stamps, rfl⟩
  · rintro ⟨rst, stamps, rfl⟩
    have only : [{ rst := true, seqno := c.sender.nextWire }].mapM c.receiver.stamp = .ok [rst] := by
      simp only [List.mapM_cons, List.mapM_nil, stamps, ok_bind]
      rfl
    exact ⟨_, .moves only, rfl⟩

theorem resetByPeer_eq_ok_iff : c.resetByPeer.result = .ok after ↔ after = c.kill (some .byPeer) := by
  unfold resetByPeer
  rw [Run.result_bind, Run.result_say, ok_bind, Run.result_pure, Except.ok.injEq]
  exact eq_comm

theorem pump_eq_ok_iff : c.pump.result = .ok after ↔
    ∃ sender, c.sender.fillWindow.result = .ok sender ∧ Flushes { c with sender } after := by
  unfold pump
  simp only [Run.result_bind, bind_eq_ok, flush_eq_ok_iff]

theorem sendAck_eq_ok_iff :
    c.sendAck.result = .ok after ↔ Flushes { c with sender := c.sender.sendEmpty } after := flush_eq_ok_iff

theorem connect_eq_ok_iff : c.connect.result = .ok after ↔ ∃ asked, Connects c asked after := by
  unfold connect
  by_cases settled : (!c.active || c.opened) = true
  · rw [if_pos settled, Run.result_pure, Except.ok.injEq]
    have settled : c.active = false ∨ c.opened = true := by simpa using settled
    constructor
    · rintro rfl
      exact ⟨_, .settled settled⟩
    · rintro ⟨_, _ | ⟨active, fresh⟩⟩
      · rfl
      · simp [active, fresh] at settled
  · rw [if_neg settled, pump_eq_ok_iff]
    have going : c.active = true ∧ c.opened = false := by simpa using settled
    constructor
    · rintro ⟨sender, fills, flushes⟩
      exact ⟨_, .opens going.1 going.2 fills flushes⟩
    · rintro ⟨_, settled' | ⟨_, _, fills, flushes⟩⟩
      · simp [going] at settled'
      · exact ⟨_, fills, flushes⟩

theorem spread_eq_ok_iff : c.spread.result = .ok after ↔ ∃ asked, Spreads c asked after := by
  unfold spread
  cases opened : c.opened with
  | false =>
    rw [if_neg Bool.false_ne_true, Run.result_pure, Except.ok.injEq]
    constructor
    · rintro rfl
      exact ⟨_, .waits opened⟩
    · rintro ⟨_, _ | opened'⟩
      · rfl
      · cases opened.symm.trans opened'
  | true =>
    rw [if_pos rfl, pump_eq_ok_iff]
    constructor
    · rintro ⟨sender, fills, flushes⟩
      exact ⟨_, .sends opened fills flushes⟩
    · rintro ⟨_, fresh | ⟨_, fills, flushes⟩⟩
      · cases opened.symm.trans fresh
      · exact ⟨_, fills, flushes⟩

end parts

section application

theorem unless_over_eq_ok_iff {α : Type} {a b : α} {run : Run α} :
    (if !c.active then pure a else run).result = .ok b ↔
      c.active = false ∧ a = b ∨ c.active = true ∧ run.result = .ok b := by
  cases c.active <;> simp

theorem write_eq_ok_iff :
    (c.write bytes).result = .ok (after, count) ↔ ∃ asked, Writes c bytes asked after count := by
  rw [write_eq, unless_over_eq_ok_iff]
  simp only [Run.result_bind, Run.result_lift, Run.result_pure, bind_eq_ok, Prod.exists, Except.ok.injEq,
    Prod.mk.injEq, spread_eq_ok_iff]
  constructor
  · rintro (⟨inactive, rfl, rfl⟩ | ⟨active, stream, _, writes, _, ⟨_, spreads⟩, rfl, rfl⟩)
    · exact ⟨_, .sleeps inactive⟩
    · exact ⟨_, .accepts active writes spreads⟩
  · rintro ⟨_, inactive | ⟨active, writes, spreads⟩⟩
    · exact Or.inl ⟨inactive, rfl, rfl⟩
    · exact Or.inr ⟨active, _, _, writes, _, ⟨_, spreads⟩, rfl, rfl⟩

theorem finish_eq_ok_iff : c.finish.result = .ok after ↔ ∃ asked, Finishes c asked after := by
  rw [finish_eq, unless_over_eq_ok_iff, spread_eq_ok_iff]
  constructor
  · rintro (⟨inactive, rfl⟩ | ⟨active, _, spreads⟩)
    · exact ⟨_, .sleeps inactive⟩
    · exact ⟨_, .ends active spreads⟩
  · rintro ⟨_, inactive | ⟨active, spreads⟩⟩
    · exact Or.inl ⟨inactive, rfl⟩
    · exact Or.inr ⟨active, _, spreads⟩

theorem abort_eq_ok_iff : c.abort.result = .ok after ↔ Aborts c after := by
  unfold abort
  rw [unless_over_eq_ok_iff, Run.result_bind, Run.result_say, ok_bind, reset_eq_ok_iff]
  constructor
  · rintro (⟨inactive, rfl⟩ | ⟨active, _, resets⟩)
    · exact .sleeps inactive
    · exact .ends active resets
  · rintro (inactive | ⟨active, resets⟩)
    · exact Or.inl ⟨inactive, rfl⟩
    · exact Or.inr ⟨active, _, resets⟩

end application

section segments

theorem hear_eq_ok_iff : (c.hear segment).result = .ok sender ↔ ∃ asked, Hearing c.sender segment asked sender := by
  unfold hear
  cases ack : segment.ack with
  | false =>
    rw [if_neg Bool.false_ne_true, Run.result_pure, Except.ok.injEq]
    constructor
    · rintro rfl
      exact ⟨_, .nothing ack⟩
    · rintro ⟨_, _ | ack'⟩
      · rfl
      · cases ack.symm.trans ack'
  | true =>
    rw [if_pos rfl, Run.result_map, map_eq_ok]
    constructor
    · rintro ⟨⟨_, _⟩, hears, rfl⟩
      exact ⟨_, .acknowledgment ack hears⟩
    · rintro ⟨_, plain | ⟨_, hears⟩⟩
      · cases ack.symm.trans plain
      · exact ⟨_, hears, rfl⟩

theorem acknowledge_eq_ok_iff : c.acknowledge.result = .ok after ↔ ∃ asked, Acknowledges c asked after := by
  unfold acknowledge
  rw [unless_over_eq_ok_iff]
  constructor
  · rintro (⟨inactive, rfl⟩ | ⟨active, h⟩)
    · exact ⟨_, .ended inactive⟩
    by_cases none : c.sender.queued = []
    · rw [if_pos (List.isEmpty_iff.mpr none), sendAck_eq_ok_iff] at h
      exact ⟨_, .answers active none h⟩
    · rw [if_neg (mt List.isEmpty_iff.mp none), flush_eq_ok_iff] at h
      exact ⟨_, .sends active none h⟩
  · rintro ⟨_, inactive | ⟨active, none, flushes⟩ | ⟨active, some, flushes⟩⟩
    · exact Or.inl ⟨inactive, rfl⟩
    · rw [if_pos (List.isEmpty_iff.mpr none), sendAck_eq_ok_iff]
      exact Or.inr ⟨active, flushes⟩
    · rw [if_neg (mt List.isEmpty_iff.mp some), flush_eq_ok_iff]
      exact Or.inr ⟨active, flushes⟩

theorem respond_eq_ok_iff : (c.respond segment).result = .ok after ↔ ∃ asked, Responds c segment asked after := by
  unfold respond
  simp only [unless_over_eq_ok_iff, Run.result_bind, bind_eq_ok]
  constructor
  · rintro (⟨inactive, rfl⟩ | ⟨active, sender, fills, h⟩)
    · exact ⟨_, .ended inactive⟩
    by_cases owed : (decide (0 < segment.sequenceLength) && sender.queued.isEmpty) = true
    · rw [if_pos owed, sendAck_eq_ok_iff] at h
      rw [Bool.and_eq_true, decide_eq_true_eq, List.isEmpty_iff] at owed
      exact ⟨_, .answers active fills owed.1 owed.2 h⟩
    · rw [if_neg owed, flush_eq_ok_iff] at h
      rw [Bool.and_eq_true, decide_eq_true_eq, List.isEmpty_iff, not_and] at owed
      exact ⟨_, .sends active fills owed h⟩
  · rintro ⟨_, inactive | ⟨active, fills, takes, none, flushes⟩ | ⟨active, fills, said, flushes⟩⟩
    · exact Or.inl ⟨inactive, rfl⟩
    · refine Or.inr ⟨active, _, fills, ?_⟩
      rw [if_pos (by simp [takes, none]), sendAck_eq_ok_iff]
      exact flushes
    · refine Or.inr ⟨active, _, fills, ?_⟩
      rw [if_neg (by simpa using said), flush_eq_ok_iff]
      exact flushes

theorem receiveListening_eq_ok_iff :
    (c.receiveListening segment).result = .ok after ↔ ∃ asked, ReceivesListening c segment asked after := by
  unfold receiveListening
  by_cases other : (segment.rst || segment.ack || !segment.syn) = true
  · rw [if_pos other, Run.result_pure, Except.ok.injEq]
    simp only [Bool.or_eq_true, Bool.not_eq_true', or_assoc] at other
    constructor
    · rintro rfl
      exact ⟨_, .ignores other⟩
    · rintro ⟨_, _ | ⟨rst, plain, syn⟩⟩
      · rfl
      · simp [rst, plain, syn] at other
  · rw [if_neg other]
    simp only [Bool.or_eq_true, Bool.not_eq_true', not_or, Bool.not_eq_true, Bool.not_eq_false] at other
    obtain ⟨⟨rst, plain⟩, syn⟩ := other
    simp only [Run.result_bind, bind_eq_ok, checkFinished_eq, Except.ok.injEq, exists_eq_left', Prod.exists,
      connect_eq_ok_iff]
    constructor
    · rintro ⟨receiver, accepted, receives, _, connects⟩
      exact ⟨_, .takes rst plain syn receives connects⟩
    · rintro ⟨_, other | ⟨_, _, _, receives, connects⟩⟩
      · simp [rst, plain, syn] at other
      · exact ⟨_, _, receives, _, connects⟩

theorem receiveSynSent_eq_ok_iff :
    (c.receiveSynSent segment).result = .ok after ↔ ∃ asked, ReceivesSynSent c segment asked after := by
  rw [receiveSynSent_eq]
  cases rst : segment.rst with
  | true =>
    simp only [if_true, Run.result_bind, Run.result_lift, bind_eq_ok]
    constructor
    · rintro ⟨_ | _, answers, h⟩
      · cases h
        exact ⟨_, .ignoresRst rst answers⟩
      · cases resetByPeer_eq_ok_iff.mp h
        exact ⟨_, .ends rst answers⟩
    · rintro ⟨_, ⟨_, answers⟩ | ⟨_, answers⟩ | ⟨plain⟩ | ⟨plain⟩⟩
      · exact ⟨_, answers, rfl⟩
      · exact ⟨_, answers, resetByPeer_eq_ok_iff.mpr rfl⟩
      all_goals cases rst.symm.trans plain
  | false =>
    rw [if_neg Bool.false_ne_true]
    cases syn : segment.syn with
    | false =>
      simp only [Bool.not_false, if_true, Run.result_pure, Except.ok.injEq]
      constructor
      · rintro rfl
        exact ⟨_, .ignores rst (Or.inl syn)⟩
      · rintro ⟨_, _ | ⟨rst'⟩ | _ | ⟨_, syn'⟩⟩
        · rfl
        · cases rst.symm.trans rst'
        · rfl
        · cases syn.symm.trans syn'
    | true =>
      simp only [Bool.not_true, Bool.false_eq_true, if_false, Run.result_bind, Run.result_lift, bind_eq_ok]
      constructor
      · rintro ⟨_ | _, legal, h⟩
        · cases h
          exact ⟨_, .ignores rst (Or.inr legal)⟩
        · simp only [Bool.not_true, Bool.false_eq_true, if_false, Run.result_bind, bind_eq_ok, checkFinished_eq,
            Except.ok.injEq, exists_eq_left', acknowledge_eq_ok_iff, hear_eq_ok_iff] at h
          obtain ⟨⟨_, _⟩, receives, _, ⟨_, hears⟩, _, acknowledges⟩ := h
          exact ⟨_, .takes rst syn legal receives hears acknowledges⟩
      · rintro ⟨_, ⟨rst'⟩ | ⟨rst'⟩ | ⟨_, other⟩ | ⟨_, _, legal, receives, hears, acknowledges⟩⟩
        · cases rst.symm.trans rst'
        · cases rst.symm.trans rst'
        · rcases other with syn' | refused
          · cases syn.symm.trans syn'
          · exact ⟨_, refused, rfl⟩
        · refine ⟨_, legal, ?_⟩
          simp only [Bool.not_true, Bool.false_eq_true, if_false, Run.result_bind, bind_eq_ok, checkFinished_eq,
            Except.ok.injEq, exists_eq_left', acknowledge_eq_ok_iff, hear_eq_ok_iff]
          exact ⟨_, receives, _, ⟨_, hears⟩, _, acknowledges⟩

theorem receiveSynchronized_eq_ok_iff :
    (c.receiveSynchronized segment).result = .ok after ↔ ∃ asked, ReceivesSynchronized c segment asked after := by
  rw [receiveSynchronized_eq]
  simp only [Run.result_bind, Run.result_lift, bind_eq_ok]
  cases rst : segment.rst with
  | true =>
    simp only [if_true]
    constructor
    · rintro ⟨inside, place, probe, probes, h⟩
      by_cases counts : (inside || probe) = true
      · rw [if_pos counts, resetByPeer_eq_ok_iff] at h
        subst h
        exact ⟨_, .ends rst place probes (Bool.or_eq_true_iff.mp counts)⟩
      · rw [if_neg counts] at h
        cases h
        simp only [Bool.or_eq_true, not_or, Bool.not_eq_true] at counts
        obtain ⟨rfl, rfl⟩ := counts
        exact ⟨_, .ignores rst place probes⟩
    · rintro ⟨_, ⟨_, apart, quiet⟩ | ⟨_, place, probes, counts⟩ | ⟨plain⟩ | ⟨plain⟩⟩
      · exact ⟨_, apart, _, quiet, rfl⟩
      · exact ⟨_, place, _, probes, by rw [if_pos (Bool.or_eq_true_iff.mpr counts), resetByPeer_eq_ok_iff]⟩
      all_goals cases rst.symm.trans plain
  | false =>
    simp only [Bool.false_eq_true, if_false, Run.result_bind, Run.result_lift, bind_eq_ok]
    constructor
    · rintro ⟨inside, place, probe, probes, legal, accepts, h⟩
      by_cases refused : (!legal || probe) = true
      · rw [if_pos refused, sendAck_eq_ok_iff] at h
        rw [Bool.or_eq_true, Bool.not_eq_true'] at refused
        exact ⟨_, .answers rst place probes accepts refused h⟩
      · rw [if_neg refused] at h
        simp only [Run.result_bind, bind_eq_ok, checkFinished_eq, Except.ok.injEq, exists_eq_left', respond_eq_ok_iff,
          hear_eq_ok_iff] at h
        obtain ⟨_, ⟨_, hears⟩, ⟨_, _⟩, receives, _, responds⟩ := h
        simp only [Bool.or_eq_true, Bool.not_eq_true', not_or, Bool.not_eq_false, Bool.not_eq_true] at refused
        obtain ⟨rfl, rfl⟩ := refused
        exact ⟨_, .takes rst place probes accepts hears receives responds⟩
    · rintro ⟨_, ⟨rst'⟩ | ⟨rst'⟩ | ⟨_, place, probes, accepts, reason, flushes⟩ |
        ⟨_, place, quiet, legal, hears, receives, responds⟩⟩
      · cases rst.symm.trans rst'
      · cases rst.symm.trans rst'
      · refine ⟨_, place, _, probes, _, accepts, ?_⟩
        rw [if_pos (by simpa using reason), sendAck_eq_ok_iff]
        exact flushes
      · refine ⟨_, place, _, quiet, _, legal, ?_⟩
        rw [if_neg (by simp)]
        simp only [Run.result_bind, bind_eq_ok, checkFinished_eq, Except.ok.injEq, exists_eq_left', respond_eq_ok_iff,
          hear_eq_ok_iff]
        exact ⟨_, ⟨_, hears⟩, _, receives, _, responds⟩

theorem dispatch_eq_ok_iff (active : c.active = true) :
    (dispatch { c with idle := 0 } segment).result = .ok after ↔ ∃ asked, Receives c segment asked after := by
  unfold dispatch
  by_cases known : Connection.synchronized { c with idle := 0 } = true
  · rw [if_pos known, receiveSynchronized_eq_ok_iff]
    have known : c.receiver.isn ≠ none := Option.isSome_iff_ne_none.mp known
    constructor
    · rintro ⟨_, receives⟩
      exact ⟨_, .synchronized active known receives⟩
    · rintro ⟨_, inactive | ⟨_, unknown⟩ | ⟨_, unknown⟩ | ⟨_, _, receives⟩⟩
      · cases active.symm.trans inactive
      · exact absurd unknown known
      · exact absurd unknown known
      · exact ⟨_, receives⟩
  rw [if_neg known]
  have unknown : c.receiver.isn = none := Option.not_isSome_iff_eq_none.mp known
  by_cases opened : Connection.opened { c with idle := 0 } = true
  · rw [if_pos opened, receiveSynSent_eq_ok_iff]
    constructor
    · rintro ⟨_, receives⟩
      exact ⟨_, .synSent active unknown opened receives⟩
    · rintro ⟨_, inactive | ⟨_, _, fresh⟩ | ⟨_, _, _, receives⟩ | ⟨_, known'⟩⟩
      · cases active.symm.trans inactive
      · exact absurd opened (Bool.eq_false_iff.mp fresh)
      · exact ⟨_, receives⟩
      · exact absurd unknown known'
  · rw [if_neg opened, receiveListening_eq_ok_iff]
    constructor
    · rintro ⟨_, receives⟩
      exact ⟨_, .listening active unknown (Bool.eq_false_iff.mpr opened) receives⟩
    · rintro ⟨_, inactive | ⟨_, _, _, receives⟩ | ⟨_, _, opened'⟩ | ⟨_, known'⟩⟩
      · cases active.symm.trans inactive
      · exact ⟨_, receives⟩
      · exact absurd opened' opened
      · exact absurd unknown known'

theorem segmentReceived_eq_ok_iff :
    (c.segmentReceived segment).result = .ok after ↔ ∃ asked, Receives c segment asked after := by
  rw [segmentReceived_result]
  by_cases inactive : (!c.active) = true
  · rw [if_pos inactive, Except.ok.injEq]
    have inactive : c.active = false := by simpa using inactive
    constructor
    · rintro rfl
      exact ⟨_, .sleeps inactive⟩
    · rintro ⟨_, _ | active | active | active⟩
      · rfl
      all_goals cases inactive.symm.trans active
  · rw [if_neg inactive]
    exact dispatch_eq_ok_iff (by simpa using inactive)

end segments

section time

theorem expire_eq_ok_iff : c.expire.result = .ok after ↔
    (c.summary.named = some .timeWait → timeWaitFactor * c.config.timeout < Count.bound) ∧
      after = { c with active := c.active && !c.expired } := by
  unfold expire expired
  by_cases waits : c.summary.named = some .timeWait
  · simp only [waits, if_true, Run.result_bind, Run.result_lift, bind_eq_ok, Count.mul_eq_ok_iff]
    constructor
    · rintro ⟨_, ⟨rfl, fits⟩, h⟩
      refine ⟨fun _ => fits, ?_⟩
      by_cases ended : timeWaitFactor * c.config.timeout ≤ c.idle
      · rw [if_pos ended] at h
        cases h
        simp [ended]
      · rw [if_neg ended] at h
        cases h
        simp [ended]
    · rintro ⟨fits, rfl⟩
      refine ⟨_, ⟨rfl, fits trivial⟩, ?_⟩
      by_cases ended : timeWaitFactor * c.config.timeout ≤ c.idle
      · rw [if_pos ended]
        simp [ended]
      · rw [if_neg ended]
        simp [ended]
  · simp only [waits, if_false, false_implies, true_and, Run.result_pure, Except.ok.injEq, decide_false,
      Bool.false_and, Bool.not_false, Bool.and_true]
    exact eq_comm

theorem tick_eq_ok_iff : (c.tick elapsed).result = .ok after ↔ Elapses c elapsed after := by
  rw [tick_eq]
  simp only [unless_over_eq_ok_iff, Run.result_bind, Run.result_lift, bind_eq_ok, Count.add_eq_ok_iff]
  constructor
  · rintro (⟨inactive, rfl⟩ | ⟨active, _, ⟨rfl, short⟩, aged, ticks, h⟩)
    · exact .sleeps inactive
    by_cases many : c.config.maxResends < aged.resends
    · rw [if_pos many, Run.result_bind, Run.result_say, ok_bind, reset_eq_ok_iff] at h
      obtain ⟨_, resets⟩ := h
      exact .givesUp active short ticks many resets
    · rw [if_neg many] at h
      simp only [Run.result_bind, bind_eq_ok, flush_eq_ok_iff, expire_eq_ok_iff] at h
      obtain ⟨_, flushes, fits, rfl⟩ := h
      rw [flushes.active_eq.trans active, Bool.true_and]
      exact .goesOn active short ticks (Nat.le_of_not_lt many) flushes fits
  · rintro (inactive | ⟨active, short, ticks, many, resets⟩ | ⟨active, short, ticks, few, flushes, fits⟩)
    · exact Or.inl ⟨inactive, rfl⟩
    · refine Or.inr ⟨active, _, ⟨rfl, short⟩, _, ticks, ?_⟩
      rw [if_pos many, Run.result_bind, Run.result_say, ok_bind, reset_eq_ok_iff]
      exact ⟨_, resets⟩
    · refine Or.inr ⟨active, _, ⟨rfl, short⟩, _, ticks, ?_⟩
      rw [if_neg (Nat.not_lt_of_le few)]
      simp only [Run.result_bind, bind_eq_ok, flush_eq_ok_iff, expire_eq_ok_iff]
      exact ⟨_, flushes, fits, by rw [flushes.active_eq.trans active, Bool.true_and]⟩

/-- Whatever is called, this is what it comes to. -/
theorem perform_eq_ok_iff : (c.perform call).result = .ok (after, reply) ↔ ∃ asked, Does c call asked after reply := by
  unfold perform
  cases call with
  | connect =>
    simp only [Run.result_bind, Run.result_pure, bind_eq_ok, Except.ok.injEq, Prod.mk.injEq, connect_eq_ok_iff]
    constructor
    · rintro ⟨_, ⟨_, connects⟩, rfl, rfl⟩
      exact ⟨_, .connects connects⟩
    · rintro ⟨_, does⟩
      cases does with
      | connects connects => exact ⟨_, ⟨_, connects⟩, rfl, rfl⟩
  | write bytes =>
    simp only [Run.result_bind, Run.result_pure, bind_eq_ok, Except.ok.injEq, Prod.mk.injEq, Prod.exists,
      write_eq_ok_iff]
    constructor
    · rintro ⟨_, _, ⟨_, writes⟩, rfl, rfl⟩
      exact ⟨_, .writes writes⟩
    · rintro ⟨_, does⟩
      cases does with
      | writes writes => exact ⟨_, _, ⟨_, writes⟩, rfl, rfl⟩
  | finish =>
    simp only [Run.result_bind, Run.result_pure, bind_eq_ok, Except.ok.injEq, Prod.mk.injEq, finish_eq_ok_iff]
    constructor
    · rintro ⟨_, ⟨_, finishes⟩, rfl, rfl⟩
      exact ⟨_, .finishes finishes⟩
    · rintro ⟨_, does⟩
      cases does with
      | finishes finishes => exact ⟨_, ⟨_, finishes⟩, rfl, rfl⟩
  | abort =>
    simp only [Run.result_bind, Run.result_pure, bind_eq_ok, Except.ok.injEq, Prod.mk.injEq, abort_eq_ok_iff]
    constructor
    · rintro ⟨_, aborts, rfl, rfl⟩
      exact ⟨_, .aborts aborts⟩
    · rintro ⟨_, does⟩
      cases does with
      | aborts aborts => exact ⟨_, aborts, rfl, rfl⟩
  | segment segment =>
    simp only [Run.result_bind, Run.result_pure, bind_eq_ok, Except.ok.injEq, Prod.mk.injEq,
      segmentReceived_eq_ok_iff]
    constructor
    · rintro ⟨_, ⟨_, receives⟩, rfl, rfl⟩
      exact ⟨_, .receives receives⟩
    · rintro ⟨_, does⟩
      cases does with
      | receives receives => exact ⟨_, ⟨_, receives⟩, rfl, rfl⟩
  | tick elapsed =>
    simp only [Run.result_bind, Run.result_pure, bind_eq_ok, Except.ok.injEq, Prod.mk.injEq, tick_eq_ok_iff]
    constructor
    · rintro ⟨_, elapses, rfl, rfl⟩
      exact ⟨_, .ticks elapses⟩
    · rintro ⟨_, does⟩
      cases does with
      | ticks elapses => exact ⟨_, elapses, rfl, rfl⟩
  | inbound call =>
    unfold Receiver.performStream
    simp only [Run.result_bind, Run.result_pure, Run.result_lift, bind_eq_ok, pure_eq_ok, Except.ok.injEq,
      Prod.mk.injEq, Prod.exists]
    constructor
    · rintro ⟨_, _, ⟨_, _, takes, rfl, rfl⟩, rfl, rfl⟩
      exact ⟨_, .reads takes⟩
    · rintro ⟨_, does⟩
      cases does with
      | reads takes => exact ⟨_, _, ⟨_, _, takes, rfl, rfl⟩, rfl, rfl⟩

end time

section settled

variable {last : Connection} {heard : Sender} {other : List Sender.Call} {answer : Reply}

theorem Connects.asked_eq (connects : Connects c asked after) (again : Connects c other last) : asked = other := by
  cases connects <;> cases again <;> simp_all

theorem Spreads.asked_eq (spreads : Spreads c asked after) (again : Spreads c other last) : asked = other := by
  cases spreads <;> cases again <;> simp_all

theorem Hearing.unique {s : Sender} (hears : Hearing s segment asked sender) (again : Hearing s segment other heard) :
    asked = other ∧ sender = heard := by
  cases hears <;> cases again <;> simp_all

theorem Acknowledges.asked_eq (acknowledges : Acknowledges c asked after) (again : Acknowledges c other last) :
    asked = other := by
  cases acknowledges <;> cases again <;> simp_all

theorem Responds.asked_eq (responds : Responds c segment asked after) (again : Responds c segment other last) :
    asked = other := by
  cases responds <;> cases again <;> simp_all

theorem ReceivesListening.asked_eq (receives : ReceivesListening c segment asked after)
    (again : ReceivesListening c segment other last) : asked = other := by
  cases receives with
  | ignores ignored => cases again <;> simp_all
  | takes rst plain syn receives connects =>
    cases again with
    | ignores ignored => simp_all
    | takes _ _ _ receives' connects' =>
      cases receives.symm.trans receives'
      exact connects.asked_eq connects'

theorem ReceivesSynSent.asked_eq (receives : ReceivesSynSent c segment asked after)
    (again : ReceivesSynSent c segment other last) : asked = other := by
  cases receives with
  | ignoresRst | ends | ignores => cases again <;> simp_all
  | takes rst syn legal receives hears acknowledges =>
    cases again with
    | ignoresRst | ends | ignores => simp_all
    | takes _ _ _ receives' hears' acknowledges' =>
      cases receives.symm.trans receives'
      obtain ⟨rfl, rfl⟩ := hears.unique hears'
      rw [acknowledges.asked_eq acknowledges']

theorem ReceivesSynchronized.asked_eq (receives : ReceivesSynchronized c segment asked after)
    (again : ReceivesSynchronized c segment other last) : asked = other := by
  cases receives with
  | ignores | ends | answers => cases again <;> simp_all
  | takes rst place quiet legal hears receives responds =>
    cases again with
    | ignores | ends | answers => simp_all
    | takes _ _ _ _ hears' receives' responds' =>
      cases receives.symm.trans receives'
      obtain ⟨rfl, rfl⟩ := hears.unique hears'
      rw [responds.asked_eq responds']

theorem Receives.asked_eq (receives : Receives c segment asked after) (again : Receives c segment other last) :
    asked = other := by
  cases receives with
  | sleeps => cases again <;> simp_all
  | listening _ _ _ receives =>
    cases again with
    | listening _ _ _ receives' => exact receives.asked_eq receives'
    | sleeps | synSent | synchronized => simp_all
  | synSent _ _ _ receives =>
    cases again with
    | synSent _ _ _ receives' => exact receives.asked_eq receives'
    | sleeps | listening | synchronized => simp_all
  | synchronized _ _ receives =>
    cases again with
    | synchronized _ _ receives' => exact receives.asked_eq receives'
    | sleeps | listening | synSent => simp_all

theorem Writes.asked_eq {more : Nat} (writes : Writes c bytes asked after count)
    (again : Writes c bytes other last more) : asked = other := by
  cases writes with
  | sleeps => cases again <;> simp_all
  | accepts _ writes spreads =>
    cases again with
    | sleeps => simp_all
    | accepts _ writes' spreads' =>
      cases writes.symm.trans writes'
      rw [spreads.asked_eq spreads']

theorem Finishes.asked_eq (finishes : Finishes c asked after) (again : Finishes c other last) : asked = other := by
  cases finishes with
  | sleeps => cases again <;> simp_all
  | ends _ spreads =>
    cases again with
    | sleeps => simp_all
    | ends _ spreads' => rw [spreads.asked_eq spreads']

/-- What is asked of the sender is settled by the connection and the call. -/
theorem Does.asked_eq (does : Does c call asked after reply) (again : Does c call other last answer) :
    asked = other := by
  cases does with
  | connects connects =>
    cases again with
    | connects connects' => exact connects.asked_eq connects'
  | writes writes =>
    cases again with
    | writes writes' => exact writes.asked_eq writes'
  | finishes finishes =>
    cases again with
    | finishes finishes' => exact finishes.asked_eq finishes'
  | receives receives =>
    cases again with
    | receives receives' => exact receives.asked_eq receives'
  | aborts | ticks | reads =>
    cases again
    rfl

end settled

end TcpStack.Connection

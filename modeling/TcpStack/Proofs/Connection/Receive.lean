import TcpStack.Connection.Call
import TcpStack.Proofs.Outcome

/-! How a connection deals with a segment, said step by step: each of the three situations as one
sequence of named parts, and what a segment comes to apart from what is said about it. -/

namespace TcpStack.Connection

def lingers (c : Connection) : Bool := c.linger && !(c.inbound.ended && !c.outbound.atEnd)

def isOver (c : Connection) : Bool :=
  c.inbound.ended && !c.lingers && c.sender.state = .finAcked

theorem result_endIf (c : Connection) (ending : Bool) :
    (if ending then do
        Run.say .closed
        return { c with active := false }
      else return c : Run Connection).result = .ok { c with active := c.active && !ending } := by
  cases ending <;> simp

def checked (c : Connection) : Connection :=
  { c with linger := c.lingers, active := c.active && !c.isOver }

theorem checkFinished_eq (c : Connection) : c.checkFinished.result = .ok c.checked := by
  unfold checkFinished checked
  cases early : c.inbound.ended && !c.outbound.atEnd with
  | true =>
    have lingers : c.lingers = false := by simp [Connection.lingers, early]
    simp only [early, if_true, isOver, lingers]
    exact result_endIf { c with linger := false } _
  | false =>
    have lingers : c.lingers = c.linger := by simp [Connection.lingers, early]
    simp only [early, Bool.false_eq_true, if_false, isOver, lingers]
    exact result_endIf c _

def acceptsAck (c : Connection) (segment : Segment) : Except Fault Bool :=
  if segment.ack then c.sender.ackIsLegal segment.ackno else pure true

def answersOurs (c : Connection) (segment : Segment) : Except Fault Bool :=
  if segment.ack then c.sender.ackIsLegal segment.ackno else pure false

def hear (c : Connection) (segment : Segment) : Run Sender :=
  if segment.ack then Prod.fst <$> c.sender.ackReceived segment.ackno segment.window
  else pure c.sender

def isProbe (c : Connection) (segment : Segment) : Except Fault Bool :=
  if segment.sequenceLength = 0 then
    (fun ackno => ackno.map (· - (1 : UInt32)) == some segment.seqno) <$> c.receiver.checkedAckno
  else pure false

def respond (c : Connection) (segment : Segment) : Run Connection := do
  if !c.active then return c
  let sender ← c.sender.fillWindow
  if 0 < segment.sequenceLength && sender.queued.isEmpty then sendAck { c with sender }
  else flush { c with sender }

def acknowledge (c : Connection) : Run Connection := do
  if !c.active then return c
  if c.sender.queued.isEmpty then c.sendAck else c.flush

def spread (c : Connection) : Run Connection := if c.opened then c.pump else pure c

def expire (c : Connection) : Run Connection := do
  if c.summary.named = some .timeWait then
    let limit ← Count.mul timeWaitFactor c.config.timeout
    if limit ≤ c.idle then
      Run.say .timeWaitExpired
      return { c with active := false }
  return c

theorem write_eq (c : Connection) (bytes : Bytes) :
    c.write bytes = if !c.active then pure (c, 0) else (do
      let written ← c.sender.stream.write bytes
      let spread ← spread { c with sender := { c.sender with stream := written.1 } }
      return (spread, written.2)) := by
  unfold write spread
  split
  · rfl
  refine congrArg (liftM (c.sender.stream.write bytes) >>= ·) (funext fun ⟨stream, accepted⟩ => ?_)
  dsimp only
  split <;> rfl

theorem finish_eq (c : Connection) : c.finish = if !c.active then pure c else
    spread { c with sender := { c.sender with stream := c.sender.stream.finish } } := rfl

theorem tick_eq (c : Connection) (elapsed : Nat) : c.tick elapsed = if !c.active then pure c else (do
    let idle ← Count.add c.idle elapsed
    let sender ← c.sender.tick elapsed
    if c.config.maxResends < sender.resends then
      Run.say (.givingUp sender.resends)
      reset { c with idle, sender } (some .timedOut)
    else
      let flushed ← flush { c with idle, sender }
      flushed.expire) := by
  unfold tick
  split <;> rfl

theorem receiveSynchronized_eq (c : Connection) (segment : Segment) :
    c.receiveSynchronized segment = (do
      let inWindow ← c.receiver.inWindow segment
      let probe ← c.isProbe segment
      if segment.rst then
        if inWindow || probe then c.resetByPeer else return c
      else
        let legal ← c.acceptsAck segment
        if !legal || probe then c.sendAck
        else
          let sender ← c.hear segment
          let received ← c.receiver.segmentReceived segment
          let checked ← checkFinished { c with receiver := received.1, sender }
          checked.respond segment) := by
  unfold receiveSynchronized isProbe acceptsAck hear respond
  by_cases empty : segment.sequenceLength = 0 <;> by_cases rst : segment.rst = true <;>
    by_cases ack : segment.ack = true <;>
    simp only [empty, rst, ack, if_true, if_false, Run.lift_bind, Run.lift_pure, pure_bind,
      bind_assoc, map_eq_pure_bind, Bool.false_eq_true]

theorem receiveSynSent_eq (c : Connection) (segment : Segment) :
    c.receiveSynSent segment = (do
      if segment.rst then
        let answers ← c.answersOurs segment
        if answers then c.resetByPeer else return c
      else if !segment.syn then return c
      else
        let legal ← c.acceptsAck segment
        if !legal then return c
        let received ← c.receiver.segmentReceived segment
        let sender ← c.hear segment
        let checked ← checkFinished { c with receiver := received.1, sender }
        checked.acknowledge) := by
  unfold receiveSynSent answersOurs acceptsAck hear acknowledge
  by_cases rst : segment.rst = true <;> by_cases ack : segment.ack = true <;>
    by_cases syn : segment.syn = true <;>
    simp only [rst, ack, syn, if_true, if_false, Run.lift_pure, pure_bind, bind_assoc,
      map_eq_pure_bind, Bool.false_eq_true]

theorem result_note (run : Run Connection) (before : Summary) :
    (do
      let c ← run
      if c.summary ≠ before then Run.say (.moved before c.summary)
      return c : Run Connection).result = run.result := by
  rw [Run.result_bind]
  have same (c : Connection) : (do
      if c.summary ≠ before then Run.say (.moved before c.summary)
      return c : Run Connection).result = .ok c := by
    split <;> rfl
  simp only [same]
  exact bind_pure run.result

def dispatch (c : Connection) (segment : Segment) : Run Connection :=
  if c.synchronized then c.receiveSynchronized segment
  else if c.opened then c.receiveSynSent segment
  else c.receiveListening segment

theorem segmentReceived_result (c : Connection) (segment : Segment) :
    (c.segmentReceived segment).result =
      if !c.active then .ok c else (dispatch { c with idle := 0 } segment).result := by
  unfold segmentReceived
  split
  · rfl
  rw [Run.result_bind, Run.result_say]
  unfold dispatch
  by_cases known : Connection.synchronized { c with idle := 0 } = true
  · simp only [if_pos known]
    exact result_note _ c.summary
  · by_cases sent : Connection.opened { c with idle := 0 } = true
    · simp only [if_neg known, if_pos sent]
      exact result_note _ c.summary
    · simp only [if_neg known, if_neg sent]
      exact result_note _ c.summary

end TcpStack.Connection

import TcpStack.Proofs.Connection.Parts

/-! What a call does to a connection. A segment is passed over, or ends the connection, or is answered
without being taken in, or is taken in by both halves, after which it is checked whether the connection is
finished and whatever can be sent is sent; every other call comes down to parts in which no segment is
dealt with. -/

namespace TcpStack.Connection

open Outcome

variable {c after : Connection} {segment : Segment} {asked : List Sender.Call}

inductive Ignores (c : Connection) (segment : Segment) : Prop
  | unasked (unknown : c.receiver.isn = none) (unopened : c.opened = false)
      (other : segment.rst = true ∨ segment.ack = true ∨ segment.syn = false)
  | strayReset (unknown : c.receiver.isn = none) (opened : c.opened = true)
      (rst : segment.rst = true) (answers : c.answersOurs segment = .ok false)
  | noAnswer (unknown : c.receiver.isn = none) (opened : c.opened = true) (rst : segment.rst = false)
      (other : segment.syn = false ∨ c.acceptsAck segment = .ok false)
  | outside (known : c.receiver.isn ≠ none) (rst : segment.rst = true)
      (apart : c.receiver.inWindow segment = .ok false) (quiet : c.isProbe segment = .ok false)

inductive Handles (c : Connection) (segment : Segment) : Connection → Prop
  | sleeps (inactive : c.active = false) : Handles c segment c
  | passes (active : c.active = true) (ignored : c.Ignores segment) :
      Handles c segment { c with idle := 0 }
  | ends (active : c.active = true) (rst : segment.rst = true) :
      Handles c segment (kill { c with idle := 0 } (some .byPeer))
  | answers {after : Connection} (active : c.active = true) (known : c.receiver.isn ≠ none)
      (rst : segment.rst = false)
      (reason : c.acceptsAck segment = .ok false ∨ c.isProbe segment = .ok true)
      (replies : Replies { c with idle := 0 } after) : Handles c segment after
  | takes {sender : Sender} {receiver : Receiver} {accepted : Bool} {after : Connection}
      (active : c.active = true) (rst : segment.rst = false)
      (counts : c.receiver.isn = none → segment.syn = true)
      (hears : c.sender.Steps segment.offer sender)
      (takes : c.receiver.Takes segment receiver accepted)
      (replies : Replies (checked { c with idle := 0, sender, receiver }) after) :
      Handles c segment after

theorem intake_parts {sender : Sender} {receiver : Receiver} {accepted : Bool}
    (hears : c.sender.Steps segment.offer sender)
    (takes : c.receiver.Takes segment receiver accepted) :
    Parts (some segment) c { c with idle := 0, sender, receiver } := by
  have woken : Parts (some segment) c { c with idle := 0 } := (Part.ages 0).parts
  have heard : Parts (some segment) { c with idle := 0 } { c with idle := 0, sender } :=
    parts_of_steps (c := { c with idle := 0 }) hears
  have taken : Part (some segment) { c with idle := 0, sender }
      { c with idle := 0, sender, receiver } := .takes rfl takes
  exact (woken.trans heard).trans taken.parts

theorem Handles.parts (handles : Handles c segment after) : Parts (some segment) c after := by
  have woken : Parts (some segment) c { c with idle := 0 } := (Part.ages 0).parts
  cases handles with
  | sleeps => exact Parts.refl _ _
  | passes => exact woken
  | ends => exact woken.trans (Part.kills _).parts
  | answers _ _ _ _ replies => exact woken.trans replies.parts.alone
  | takes _ _ _ hears takes replies =>
    exact ((intake_parts hears takes).trans Part.checks.parts).trans replies.parts.alone

theorem known_of_takes {receiver : Receiver} {accepted : Bool}
    (counts : c.receiver.isn = none → segment.syn = true)
    (takes : c.receiver.Takes segment receiver accepted) : receiver.isn ≠ none := by
  cases takes with
  | refused reason =>
    intro unknown
    cases reason with
    | early _ syn => exact absurd (counts unknown) (by simp [syn])
    | again known | ended known => exact known unknown
    | before known => simp [known] at unknown
    | outside known => simp [known] at unknown
  | late => simp
  | opens => simp
  | goesOn known => simp [known]

theorem Hearing.steps {s sender : Sender} (hears : Hearing s segment asked sender) :
    s.Steps segment.offer sender := by
  cases hears with
  | nothing => exact Sender.Steps.refl _ _
  | acknowledgment ack hears =>
    rw [Segment.offer, if_pos ack]
    exact Sender.ackReceived_steps hears

theorem Receives.handles (receives : Receives c segment asked after) : Handles c segment after := by
  cases receives with
  | sleeps inactive => exact .sleeps inactive
  | listening active unknown fresh receives =>
    cases receives with
    | ignores other => exact .passes active (.unasked unknown fresh other)
    | takes rst _ syn receives connects =>
      exact .takes active rst (fun _ => syn) (Sender.Steps.refl _ _) (Receiver.segmentReceived_takes receives)
        connects.replies
  | synSent active unknown opened receives =>
    cases receives with
    | ignoresRst rst answers => exact .passes active (.strayReset unknown opened rst answers)
    | ends rst => exact .ends active rst
    | ignores rst other => exact .passes active (.noAnswer unknown opened rst other)
    | takes rst syn _ receives hears acknowledges =>
      exact .takes active rst (fun _ => syn) hears.steps (Receiver.segmentReceived_takes receives)
        acknowledges.replies
  | synchronized active known receives =>
    cases receives with
    | ignores rst apart quiet => exact .passes active (.outside known rst apart quiet)
    | ends rst => exact .ends active rst
    | answers rst _ probes accepts reason flushes =>
      have replies := flushes.replies Sender.Step.replies.steps
      rcases reason with rfl | rfl
      · exact .answers active known rst (Or.inl accepts) replies
      · exact .answers active known rst (Or.inr probes) replies
    | takes rst _ _ _ hears receives responds =>
      exact .takes active rst (fun unknown => absurd unknown known) hears.steps
        (Receiver.segmentReceived_takes receives) responds.replies

theorem segmentReceived_handles (h : (c.segmentReceived segment).result = .ok after) :
    Handles c segment after := by
  obtain ⟨_, receives⟩ := segmentReceived_eq_ok_iff.mp h
  exact receives.handles

inductive Performs (c : Connection) : Call → Connection → Reply → Prop
  | connects {after : Connection} (replies : Replies c after) : Performs c .connect after .done
  | aborts {after : Connection} (aborts : Aborts c after) : Performs c .abort after .done
  | ticks {after : Connection} (elapsed : Nat) (elapses : Elapses c elapsed after) :
      Performs c (.tick elapsed) after .done
  | receives {after : Connection} (segment : Segment) (handles : Handles c segment after) :
      Performs c (.segment segment) after .done
  | ignoresWrite (bytes : Bytes) : Performs c (.write bytes) c (.count 0)
  | writes {after : Connection} {bytes : Bytes} {stream : ByteStream} {count : Nat}
      (accepts : c.sender.stream.write bytes = .ok (stream, count))
      (replies : Replies { c with sender := { c.sender with stream } } after) :
      Performs c (.write bytes) after (.count count)
  | ignoresFinish : Performs c .finish c .done
  | finishes {after : Connection}
      (replies : Replies
        { c with sender := { c.sender with stream := c.sender.stream.finish } } after) :
      Performs c .finish after .done
  | reads {call : ByteStream.Call} {output : ByteStream} {reply : Reply}
      (takes : c.inbound.perform call = .ok (output, reply)) :
      Performs c (.inbound call) { c with receiver := { c.receiver with
        reassembler := { c.receiver.reassembler with output } } } reply

theorem Does.performs {call : Call} {reply : Reply} (does : Does c call asked after reply) :
    Performs c call after reply := by
  cases does with
  | connects connects => exact .connects connects.replies
  | aborts aborts => exact .aborts aborts
  | ticks elapses => exact .ticks _ elapses
  | receives receives => exact .receives _ receives.handles
  | writes writes =>
    cases writes with
    | sleeps => exact .ignoresWrite _
    | accepts _ writes spreads => exact .writes writes spreads.replies
  | finishes finishes =>
    cases finishes with
    | sleeps => exact .ignoresFinish
    | ends _ spreads => exact .finishes spreads.replies
  | reads takes => exact .reads takes

theorem perform_performs {call : Call} {reply : Reply}
    (h : (c.perform call).result = .ok (after, reply)) : Performs c call after reply := by
  obtain ⟨_, does⟩ := perform_eq_ok_iff.mp h
  exact does.performs

end TcpStack.Connection

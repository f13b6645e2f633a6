import TcpStack.Proofs.Connection.Course
import TcpStack.Proofs.Receiver.Intake
import TcpStack.Proofs.Sender.Step

/-! The work of a connection, taken apart. Every call comes down to steps of the sender, the intake of
the segment that came in, and a few moves between the two and the queue, so a property that each of
these parts keeps is kept by every call. -/

namespace TcpStack

/-- The acknowledgment number and the window that a segment brings, if it brings them. -/
def Segment.offer (segment : Segment) : Option (SeqNum × UInt16) :=
  if segment.ack then some (segment.ackno, segment.window) else none

namespace Connection

open Outcome

/-- `incoming` is the segment that is being dealt with, if one is. -/
inductive Part (incoming : Option Segment) (c : Connection) : Connection → Prop
  | sends {sender : Sender} (step : c.sender.Step (incoming.bind Segment.offer) sender) :
      Part incoming c { c with sender }
  | takes {segment : Segment} {receiver : Receiver} {accepted : Bool}
      (came : incoming = some segment) (takes : c.receiver.Takes segment receiver accepted) :
      Part incoming c { c with receiver }
  | flushes {stamped : List Segment} (stamps : c.sender.queued.mapM c.receiver.stamp = .ok stamped) :
      Part incoming c
        { c with sender := { c.sender with queued := [] }, queued := c.queued ++ stamped }
  | replaces : Part incoming c { c with
      sender := { c.sender with queued := [{ rst := true, seqno := c.sender.nextWire }] } }
  | kills (cause : Option ResetCause) : Part incoming c (c.kill cause)
  | ages (idle : Nat) : Part incoming c { c with idle }
  | checks : Part incoming c c.checked
  | expires (waits : c.summary.named = some .timeWait) : Part incoming c { c with active := false }

def Parts (incoming : Option Segment) : Connection → Connection → Prop :=
  Relation.ReflTransGen (Part incoming)

theorem Part.parts {incoming : Option Segment} {c after : Connection}
    (part : Part incoming c after) : Parts incoming c after := Relation.ReflTransGen.single part

theorem Parts.refl (incoming : Option Segment) (c : Connection) : Parts incoming c c :=
  Relation.ReflTransGen.refl

theorem Parts.trans {incoming : Option Segment} {c middle after : Connection}
    (first : Parts incoming c middle) (second : Parts incoming middle after) :
    Parts incoming c after := Relation.ReflTransGen.trans first second

theorem Parts.induction {incoming : Option Segment} {P : Connection → Prop} {c after : Connection}
    (parts : Parts incoming c after) (start : P c)
    (part : ∀ c after, Part incoming c after → P c → P after) : P after := by
  induction parts with
  | refl => exact start
  | tail _ last ih => exact part _ _ last ih

theorem quiet {P : Segment → Prop} (segment : Segment) (came : (none : Option Segment) = some segment) :
    P segment := by
  cases came

theorem parts_of_steps {incoming : Option Segment} {c : Connection} {sender : Sender}
    (steps : Sender.Steps (incoming.bind Segment.offer) c.sender sender) :
    Parts incoming c { c with sender } := by
  induction steps with
  | refl => exact Parts.refl incoming c
  | tail _ last ih => exact ih.trans (Part.sends last).parts

variable {incoming : Option Segment} {c after : Connection} {segment : Segment} {elapsed : Nat}
  {asked : List Sender.Call}

theorem Parts.alone (parts : Parts none c after) : Parts incoming c after := by
  refine parts.induction (P := Parts incoming c) (Parts.refl incoming c) fun x y part reached => ?_
  refine reached.trans (Part.parts ?_)
  cases part with
  | sends step => exact .sends step.alone
  | takes came => cases came
  | flushes stamps => exact .flushes stamps
  | replaces => exact .replaces
  | kills cause => exact .kills cause
  | ages idle => exact .ages idle
  | checks => exact .checks
  | expires waits => exact .expires waits

theorem Part.known_stays (part : Part incoming c after) (known : c.receiver.isn ≠ none) :
    after.receiver.isn ≠ none := by
  obtain ⟨isn, isn_eq⟩ := Option.ne_none_iff_exists'.mp known
  cases part with
  | takes _ takes => simp [takes.isn_stays isn_eq]
  | sends | flushes | replaces | kills | ages | checks | expires => exact known

inductive Replies (c : Connection) : Connection → Prop
  | silent : Replies c c
  | sends {sender : Sender} {stamped : List Segment} (steps : Sender.Steps none c.sender sender)
      (stamps : sender.queued.mapM c.receiver.stamp = .ok stamped) :
      Replies c { c with sender := { sender with queued := [] }, queued := c.queued ++ stamped }

theorem Replies.parts (replies : Replies c after) : Parts none c after := by
  cases replies with
  | silent => exact Parts.refl none c
  | @sends sender stamped steps stamps =>
    have stepped : Parts none c { c with sender } := parts_of_steps steps
    exact stepped.trans (Part.flushes (c := { c with sender }) stamps).parts

theorem Resets.parts {cause : Option ResetCause} {rst : Segment} (resets : Resets c cause rst after) :
    Parts none c after := by
  obtain ⟨stamps, rfl⟩ := resets
  have replaced : Part none c { c with
      sender := { c.sender with queued := [{ rst := true, seqno := c.sender.nextWire }] } } :=
    .replaces
  have alone : [({ rst := true, seqno := c.sender.nextWire } : Segment)].mapM c.receiver.stamp =
      .ok [rst] := by
    rw [List.mapM_cons, stamps, ok_bind, List.mapM_nil]
    rfl
  exact (replaced.parts.trans (Part.flushes alone).parts).trans (Part.kills cause).parts

theorem Aborts.parts (aborts : Aborts c after) : Parts none c after := by
  cases aborts with
  | sleeps => exact Parts.refl none c
  | ends _ resets => exact resets.parts

theorem Flushes.eq_of_active (flushes : Flushes c after) (active : c.active = true) :
    { after with active := true } = after := by
  cases flushes
  rw [← active]

theorem Flushes.replies {sender : Sender} (flushes : Flushes { c with sender } after)
    (steps : Sender.Steps none c.sender sender) : Replies c after := by
  cases flushes with
  | moves stamps => exact .sends steps stamps

theorem Elapses.parts (elapses : Elapses c elapsed after) : Parts none c after := by
  have aged : Parts none c { c with idle := c.idle + elapsed } := (Part.ages _).parts
  cases elapses with
  | sleeps => exact Parts.refl none c
  | @givesUp sender _ _ _ _ ticks _ resets =>
    have stepped : Parts none { c with idle := c.idle + elapsed } { c with idle := c.idle + elapsed, sender } :=
      parts_of_steps (c := { c with idle := c.idle + elapsed }) (Sender.tick_steps ticks)
    exact (aged.trans stepped).trans resets.parts
  | @goesOn _ flushed active _ ticks _ flushes _ =>
    have replies : Replies { c with idle := c.idle + elapsed } flushed := flushes.replies (Sender.tick_steps ticks)
    have reached := aged.trans replies.parts
    cases ended : flushed.expired with
    | false => rwa [Bool.not_false, flushes.eq_of_active active]
    | true =>
      have waits : flushed.summary.named = some .timeWait := of_decide_eq_true (Bool.and_eq_true_iff.mp ended).1
      exact reached.trans (Part.expires waits).parts

theorem Connects.replies (connects : Connects c asked after) : Replies c after := by
  cases connects with
  | settled => exact .silent
  | opens _ _ fills flushes => exact flushes.replies (Sender.fillWindow_steps fills)

theorem Spreads.replies (spreads : Spreads c asked after) : Replies c after := by
  cases spreads with
  | waits => exact .silent
  | sends _ fills flushes => exact flushes.replies (Sender.fillWindow_steps fills)

theorem Acknowledges.replies (acknowledges : Acknowledges c asked after) : Replies c after := by
  cases acknowledges with
  | ended => exact .silent
  | answers _ _ flushes => exact flushes.replies Sender.Step.replies.steps
  | sends _ _ flushes => exact flushes.replies (Sender.Steps.refl _ _)

theorem Responds.replies (responds : Responds c segment asked after) : Replies c after := by
  cases responds with
  | ended => exact .silent
  | answers _ fills _ _ flushes =>
    exact flushes.replies ((Sender.fillWindow_steps fills).trans Sender.Step.replies.steps)
  | sends _ fills _ flushes => exact flushes.replies (Sender.fillWindow_steps fills)

end Connection
end TcpStack

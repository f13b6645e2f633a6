import TcpStack.Proofs.Connection.TimeWait
import TcpStack.Proofs.Receiver.Fed
import TcpStack.Proofs.Sender.Attempts

/-! What time can do to a connection. What is taken in is acknowledged at once, so the next acknowledgment always has
its place; the attempts are few, as each takes twice the time of the one before; and the silence is no longer than
the time that was told. So a tick has a result, unless the connection waits for the end and its configuration makes
it wait for longer than a counter can tell. -/

namespace TcpStack

open Outcome

namespace Receiver

variable {r after : Receiver} {segment : Segment} {accepted : Bool}

structure Tidy (r : Receiver) : Prop where
  sound : r.stream.Sound
  cells : r.stream.capacity = r.reassembler.capacity
  prompt : r.reassembler.Prompt

theorem Tidy.takes (tidy : r.Tidy) (takes : r.Takes segment after accepted) : after.Tidy := by
  obtain ⟨_, goes, -⟩ := takes.spec tidy.sound
  refine ⟨goes.sound, (goes.cells_eq.trans tidy.cells).trans goes.capacity_eq.symm, ?_⟩
  rcases takes.cases_push with same | ⟨index, -, push⟩
  · exact same ▸ tidy.prompt
  · exact Reassembler.push_prompt tidy.prompt push

theorem Tidy.fail (tidy : r.Tidy) : Tidy
    { r with reassembler := { r.reassembler with output := r.reassembler.output.fail } } :=
  ⟨tidy.sound.fail, tidy.cells, tidy.prompt.withOutput rfl⟩

theorem Tidy.byHand (tidy : r.Tidy) {call : ByteStream.Call} {output : ByteStream} {reply : Reply}
    (other : call ≠ .finish) (h : r.stream.perform call = .ok (output, reply)) :
    Tidy { r with reassembler := { r.reassembler with output } } := by
  obtain ⟨sound, capacity_eq, -⟩ := ByteStream.perform_sound tidy.sound h
  exact ⟨sound, capacity_eq.trans tidy.cells,
    tidy.prompt.withOutput (ByteStream.perform_ended tidy.sound other h)⟩

theorem Acknowledges.withOutput (acknowledges : r.Acknowledges) {output : ByteStream}
    (ended_eq : output.ended = r.stream.ended) :
    Acknowledges { r with reassembler := { r.reassembler with output } } := by
  intro known
  have place := acknowledges known
  unfold ackPosition Reassembler.finished at place ⊢
  rw [ended_eq]
  exact place

end Receiver

namespace Connection

variable {allows : ByteStream.Call → Bool} {events : List Event} {c after : Connection} {segment : Segment}
  {incoming : Option Segment} {call : Call} {reply : Reply} {spent time : Nat} {asked : List Sender.Call}

section acknowledging

theorem Part.tidy (part : Part incoming c after) (tidy : c.receiver.Tidy) : after.receiver.Tidy := by
  cases part with
  | takes _ takes => exact tidy.takes takes
  | kills => exact tidy.fail
  | sends | flushes | replaces | ages | checks | expires => exact tidy

theorem Parts.tidy (parts : Parts incoming c after) (tidy : c.receiver.Tidy) : after.receiver.Tidy :=
  parts.induction (P := fun x => x.receiver.Tidy) tidy fun _ _ part => part.tidy

theorem Part.acknowledges (part : Part none c after) (acknowledges : c.receiver.Acknowledges) :
    after.receiver.Acknowledges := by
  cases part with
  | takes came => cases came
  | sends | flushes | replaces | kills | ages | checks | expires => exact acknowledges

theorem Parts.acknowledges (parts : Parts none c after) (acknowledges : c.receiver.Acknowledges) :
    after.receiver.Acknowledges :=
  parts.induction (P := fun x => x.receiver.Acknowledges) acknowledges fun _ _ part => part.acknowledges

theorem Flushes.acknowledges (flushes : Flushes c after) (some : c.sender.queued ≠ []) :
    after.receiver.Acknowledges := by
  obtain ⟨stamps⟩ := flushes
  obtain ⟨first, rest, queued⟩ := List.exists_cons_of_ne_nil some
  rw [queued, List.mapM_cons] at stamps
  simp only [bind_eq_ok] at stamps
  obtain ⟨_, stamp, -⟩ := stamps
  unfold Receiver.stamp at stamp
  simp only [bind_eq_ok] at stamp
  obtain ⟨ackno, next, -⟩ := stamp
  exact Receiver.acknowledges_iff.mpr ⟨ackno, next⟩

theorem sendEmpty_ne_nil (s : Sender) : s.sendEmpty.queued ≠ [] :=
  List.append_ne_nil_of_right_ne_nil _ (List.cons_ne_nil _ _)

theorem Connects.acknowledges (connects : Connects c asked after) (unopened : c.opened = false)
    (active : after.active = true) : after.receiver.Acknowledges := by
  cases connects with
  | settled settled => simp [active, unopened] at settled
  | @opens sender _ _ _ fills flushes =>
    have start : c.sender.nextSeqno = 0 := Nat.eq_zero_of_not_pos (of_decide_eq_false unopened)
    rw [Sender.fillWindow, if_pos start] at fills
    refine flushes.acknowledges ?_
    rw [Sender.send_eq_ok fills]
    exact List.append_ne_nil_of_right_ne_nil _ (List.cons_ne_nil _ _)

theorem Acknowledges.acknowledges (acknowledges : Acknowledges c asked after) (active : after.active = true) :
    after.receiver.Acknowledges := by
  cases acknowledges with
  | ended inactive => cases active.symm.trans inactive
  | answers _ _ flushes => exact flushes.acknowledges (sendEmpty_ne_nil c.sender)
  | sends _ some flushes => exact flushes.acknowledges some

theorem Responds.acknowledges (responds : Responds c segment asked after) (some : 0 < segment.sequenceLength)
    (active : after.active = true) : after.receiver.Acknowledges := by
  cases responds with
  | ended inactive => cases active.symm.trans inactive
  | answers _ _ _ _ flushes => exact flushes.acknowledges (sendEmpty_ne_nil _)
  | sends _ _ said flushes => exact flushes.acknowledges (said some)

theorem ReceivesSynchronized.acknowledges (receives : ReceivesSynchronized c segment asked after)
    (prompt : c.receiver.reassembler.Prompt) (acknowledges : c.receiver.Acknowledges)
    (known : c.receiver.isn ≠ none) (active : after.active = true) : after.receiver.Acknowledges := by
  cases receives with
  | ignores => exact acknowledges
  | ends => cases active
  | answers _ _ _ _ _ flushes => exact flushes.acknowledges (sendEmpty_ne_nil _)
  | @takes _ receiver _ _ _ _ _ _ _ _ _ _ receives responds =>
    rcases Nat.eq_zero_or_pos segment.sequenceLength with bare | some
    · have same : receiver = c.receiver := (Receiver.segmentReceived_takes receives).eq_of_bare known prompt bare
      refine responds.replies.parts.acknowledges ?_
      change receiver.Acknowledges
      rwa [same]
    · exact responds.acknowledges some active

theorem Receives.acknowledges (receives : Receives c segment asked after)
    (prompt : c.receiver.reassembler.Prompt) (acknowledges : c.receiver.Acknowledges)
    (active : after.active = true) : after.receiver.Acknowledges := by
  cases receives with
  | sleeps => exact acknowledges
  | listening _ _ fresh receives =>
    cases receives with
    | ignores => exact acknowledges
    | takes _ _ _ _ connects => exact connects.acknowledges fresh active
  | synSent _ _ _ receives =>
    cases receives with
    | ignoresRst | ignores => exact acknowledges
    | ends => cases active
    | takes _ _ _ _ _ answers => exact answers.acknowledges active
  | synchronized _ known receives => exact receives.acknowledges prompt acknowledges known active

theorem active_of_perform (h : (c.perform call).result = .ok (after, reply)) (active : after.active = true) :
    c.active = true := by
  by_cases timeless : ∀ elapsed, call ≠ .tick elapsed
  · exact (perform_atOnce timeless h).active active
  · obtain ⟨_, does⟩ := perform_eq_ok_iff.mp h
    cases does with
    | ticks elapses =>
      rcases elapses.ages with rfl | ⟨_, ages⟩
      · exact active
      · exact ages.active
    | connects | writes | finishes | aborts | receives | reads => exact absurd (by simp) timeless

/-- The receiver is tidy, and as long as the connection is active there is a counter for what comes next. -/
structure Acknowledging (c : Connection) : Prop where
  tidy : c.receiver.Tidy
  acknowledges : c.active = true → c.receiver.Acknowledges

theorem acknowledging_initial {config : Config} {isn : SeqNum} (fits : config.capacity < Cells.limit) :
    Acknowledging (initial config isn) :=
  ⟨⟨ByteStream.sound_ofCapacity fits, rfl, Reassembler.prompt_ofCapacity _⟩, fun _ known => absurd rfl known⟩

theorem Acknowledging.parts (acknowledging : Acknowledging c) (parts : Parts none c after)
    (lives : after.active = true → c.active = true) : Acknowledging after :=
  ⟨parts.tidy acknowledging.tidy, fun active => parts.acknowledges (acknowledging.acknowledges (lives active))⟩

theorem Acknowledging.perform (acknowledging : Acknowledging c) (other : call ≠ .inbound .finish)
    (h : (c.perform call).result = .ok (after, reply)) : Acknowledging after := by
  have lives := active_of_perform h
  have same (sender : Sender) : Acknowledging { c with sender } :=
    ⟨acknowledging.tidy, acknowledging.acknowledges⟩
  obtain ⟨_, does⟩ := perform_eq_ok_iff.mp h
  cases does with
  | connects connects => exact acknowledging.parts connects.replies.parts lives
  | aborts aborts => exact acknowledging.parts aborts.parts lives
  | ticks elapses => exact acknowledging.parts elapses.parts lives
  | writes writes =>
    cases writes with
    | sleeps => exact acknowledging
    | accepts _ _ spreads => exact (same _).parts spreads.replies.parts lives
  | finishes finishes =>
    cases finishes with
    | sleeps => exact acknowledging
    | ends _ spreads => exact (same _).parts spreads.replies.parts lives
  | receives receives =>
    exact ⟨receives.handles.parts.tidy acknowledging.tidy, fun active => receives.acknowledges
      acknowledging.tidy.prompt (acknowledging.acknowledges (lives active)) active⟩
  | @reads call output _ byHand =>
    have going : call ≠ .finish := fun finish => other (congrArg Call.inbound finish)
    have ended_eq := ByteStream.perform_ended acknowledging.tidy.sound going byHand
    exact ⟨acknowledging.tidy.byHand going byHand,
      fun active => (acknowledging.acknowledges (lives active)).withOutput ended_eq⟩

variable (unended : allows .finish = false)
include unended

theorem Reachable.acknowledging (reachable : Reachable allows c) : Acknowledging c := by
  induction reachable with
  | opened opens =>
    obtain ⟨rfl, -, fits⟩ := new?_eq_ok_iff.mp opens
    exact acknowledging_initial fits
  | called _ within performs ih =>
    refine ih.perform ?_ performs
    rintro rfl
    cases unended.symm.trans within
  | emitted _ _ ih => exact ⟨ih.tidy, ih.acknowledges⟩

theorem Reachable.stamp_returns (reachable : Reachable allows c) (active : c.active = true)
    (segment : Segment) : ∃ stamped, c.receiver.stamp segment = .ok stamped := by
  have acknowledging := reachable.acknowledging unended
  have tidy := acknowledging.tidy
  exact (acknowledging.acknowledges active).stamp_returns (tidy.cells ▸ tidy.sound.size_le) segment

end acknowledging

section time

def elapsed (events : List Event) : Nat := (events.map fun e => e.call.span).sum

@[simp] theorem elapsed_append (events more : List Event) :
    elapsed (events ++ more) = elapsed events + elapsed more := by
  simp [elapsed]

@[simp] theorem elapsed_singleton (e : Event) : elapsed [e] = e.call.span := by
  simp [elapsed]

theorem Resets.idle_eq {cause : Option ResetCause} {rst : Segment} (resets : Resets c cause rst after) :
    after.idle = c.idle := by
  rw [resets.after_eq]
  rfl

theorem idle_le_of_perform (h : (c.perform call).result = .ok (after, reply)) :
    after.idle ≤ c.idle + call.span := by
  cases perform_performs h with
  | connects replies => exact Nat.le_of_eq replies.idle_eq
  | writes _ replies | finishes replies => exact Nat.le_of_eq replies.idle_eq
  | aborts aborts =>
    cases aborts with
    | sleeps => exact Nat.le_refl _
    | ends _ resets => exact Nat.le_of_eq resets.idle_eq
  | ignoresWrite | ignoresFinish | reads => exact Nat.le_refl _
  | receives _ handles =>
    cases active : c.active with
    | true => exact handles.idle_eq active ▸ Nat.zero_le _
    | false =>
      cases handles with
      | sleeps => exact Nat.le_refl _
      | passes alive | ends alive | answers alive | takes alive => cases active.symm.trans alive
  | ticks _ elapses =>
    cases elapses with
    | sleeps => exact Nat.le_add_right _ _
    | givesUp _ _ _ _ resets => exact Nat.le_of_eq resets.idle_eq
    | goesOn _ _ _ _ flushes =>
      cases flushes
      exact Nat.le_refl _

/-- The time that was told is enough for the attempts of the sender and for the silence. -/
structure Clocked (spent : Nat) (c : Connection) : Prop where
  waits : 0 < c.config.timeout
  sender : c.sender.Spends c.config.timeout spent
  idle_le : c.idle ≤ spent

theorem Clocked.perform (clocked : Clocked spent c) (reachable : Reachable allows c)
    (h : (c.perform call).result = .ok (after, reply)) : Clocked (spent + call.span) after := by
  obtain ⟨made, empty⟩ := reachable.sender
  have idle_le : after.idle ≤ spent + call.span :=
    Nat.le_trans (idle_le_of_perform h) (Nat.add_le_add_right clocked.idle_le _)
  have waits := clocked.waits
  rcases perform_cases made empty h with ⟨-, once, relays⟩ | ⟨time, rfl, elapses⟩
  · have spends : after.sender.Spends c.config.timeout spent := by
      rcases relays with ⟨_, relays⟩ | ⟨_, resets⟩
      · obtain ⟨_, since, timeless, -⟩ := relays.since empty
        have spends := since.spends made clocked.sender
        rwa [Sender.elapsed_of_timeless timeless] at spends
      · exact resets.sender_eq ▸ clocked.sender.of_same rfl rfl
    rw [← once.config_eq] at waits spends
    exact ⟨waits, spends.later _, idle_le⟩
  · have aged {aged : Sender} (ticks : (c.sender.tick time).result = .ok aged) :
        aged.Spends c.config.timeout (spent + time) :=
      clocked.sender.ages made.books (Sender.tick_ages ticks)
    have spends : after.sender.Spends c.config.timeout (spent + time) := by
      cases elapses with
      | sleeps => exact clocked.sender.later time
      | givesUp _ _ ticks _ resets => exact resets.sender_eq ▸ (aged ticks).of_same rfl rfl
      | goesOn _ _ ticks _ flushes =>
        cases flushes
        exact (aged ticks).of_same rfl rfl
    rw [← (elapses.sender made empty).2.2] at waits spends
    exact ⟨waits, spends, idle_le⟩

theorem Traced.clocked (traced : Traced allows events c) : Clocked (elapsed events) c := by
  induction traced with
  | opened opens =>
    obtain ⟨rfl, ⟨-, some⟩, -⟩ := new?_eq_ok_iff.mp opens
    exact ⟨some, Sender.spends_initial _ _ _ _, Nat.le_refl _⟩
  | called before _ performs ih =>
    rw [elapsed_append, elapsed_singleton]
    exact ih.perform before.reachable performs
  | emitted _ _ ih => exact ⟨ih.waits, ih.sender, ih.idle_le⟩

theorem Clocked.tick_returns (clocked : Clocked spent c) (unended : allows .finish = false)
    (reachable : Reachable allows c) (short : spent + time < Count.bound)
    (other : c.summary.named ≠ some .timeWait) :
    ∃ after, (c.tick time).result = .ok after := by
  have idle_le := clocked.idle_le
  have place : c.idle + time < Count.bound := by omega
  have elapses : ∃ after, Elapses c time after := by
    cases active : c.active with
    | false => exact ⟨c, .sleeps active⟩
    | true =>
      have stamps := reachable.stamp_returns unended active
      obtain ⟨aged, ticks⟩ := clocked.sender.tick_returns clocked.waits (by omega) time
      by_cases many : c.config.maxResends < aged.resends
      · obtain ⟨_, after, resets⟩ :=
          reset_of_stamps (c := { c with idle := c.idle + time, sender := aged }) stamps (some .timedOut)
        exact ⟨after, .givesUp active place ticks many resets⟩
      · obtain ⟨flushed, flushes⟩ := flush_of_stamps (c := { c with idle := c.idle + time, sender := aged }) stamps
        have replies : Replies { c with idle := c.idle + time } flushed := flushes.replies (Sender.tick_steps ticks)
        have still : flushed.summary.named ≠ some .timeWait := fun named =>
          other (replies.timeWait reachable.sender.1.books.sound named)
        exact ⟨_, .goesOn active place ticks (Nat.le_of_not_lt many) flushes fun named => absurd named still⟩
  exact elapses.imp fun after => tick_eq_ok_iff.mpr

end time

/-- As long as a counter can tell the time of a run, and nobody ends the inbound stream by hand, a tick has a result:
the silence and the attempts have their places, and so has what is said. Only the length of the wait for the end is
more than a counter can tell if the timeout of the configuration is a tenth of all counters or more, and then no tick
has a result once the connection waits. -/
theorem tick_returns_unless_wait_overflows (unended : allows .finish = false) (traced : Traced allows events c)
    (short : elapsed events + time < Count.bound) :
    ((c.summary.named = some .timeWait → timeWaitFactor * c.config.timeout < Count.bound) →
      ∃ after, (c.perform (.tick time)).result = .ok (after, .done)) ∧
    (c.summary.named = some .timeWait → Count.bound ≤ timeWaitFactor * c.config.timeout →
      (c.perform (.tick time)).result = .error (.overflow .multiplication)) ∧
    c.idle + time < Count.bound ∧ c.sender.resends ≤ 64 := by
  have clocked := traced.clocked
  have reachable := traced.reachable
  have idle_le := clocked.idle_le
  have place : c.idle + time < Count.bound := by omega
  have waited (named : c.summary.named = some .timeWait) : (c.tick time).result = do
      let limit ← Count.mul timeWaitFactor c.config.timeout
      return { c with idle := c.idle + time, active := !decide (limit ≤ c.idle + time) } := by
    obtain ⟨sender, empty⟩ := reachable.sender
    have spent := sender.spent (named_timeWait_iff.mp named).2.2.1
    rw [tick_of_timeWait named spent empty, Count.add_eq_ok_iff.mpr ⟨rfl, place⟩]
    rfl
  refine ⟨fun fits => ?_, fun named long => ?_, place, clocked.sender.resends_le clocked.waits (by omega)⟩
  · have returns : ∃ after, (c.tick time).result = .ok after := by
      by_cases named : c.summary.named = some .timeWait
      · rw [waited named, Count.mul_eq_ok_iff.mpr ⟨rfl, fits named⟩]
        exact ⟨_, rfl⟩
      · exact clocked.tick_returns unended reachable short named
    obtain ⟨after, ticked⟩ := returns
    exact ⟨after, by simp [perform, ticked]⟩
  · have refused : Count.mul timeWaitFactor c.config.timeout = .error (.overflow .multiplication) :=
      if_neg (Nat.not_lt.mpr long)
    unfold perform
    rw [Run.result_bind, waited named, refused]
    rfl

theorem ticks_to_the_end : ∃ events c, Traced ByteStream.Call.reads events c ∧ c.summary.named = some .timeWait ∧
    elapsed events + (2 ^ 64 - 1501) < Count.bound ∧
    ∃ after, (c.perform (.tick (2 ^ 64 - 1501))).result = .ok (after, .done) := by
  have seen : (fun log => (log.2.summary.named, elapsed log.1, log.2.config.timeout)) <$> logOfDial 4
      [.finish, .tick 1000, .segment { fin := true, ack := true, seqno := ⟨5001⟩, ackno := ⟨1002⟩ }, .tick 500] =
      .ok (some .timeWait, 1500, 1000) := by decide +kernel
  obtain ⟨⟨events, c⟩, logged, look⟩ := map_eq_ok.mp seen
  simp only [Prod.mk.injEq] at look
  obtain ⟨named, told, timeout⟩ := look
  have traced : Traced ByteStream.Call.reads events c :=
    traced_logOfDial (by decide) (by decide) (by simp [Call.within]) logged
  have short : elapsed events + (2 ^ 64 - 1501) < Count.bound := by
    rw [told]
    decide
  have fits : timeWaitFactor * c.config.timeout < Count.bound := by
    rw [timeout]
    decide
  exact ⟨events, c, traced, named, short, (tick_returns_unless_wait_overflows rfl traced short).1 fun _ => fits⟩

/-- A configuration with a tenth of all counters for its timeout is not refused, and a connection that waits for
the end with it fails as soon as time passes. -/
theorem tick_past_the_counters : ∃ config events c, Config.validate config = .ok () ∧ c.config = config ∧
    Traced ByteStream.Call.reads events c ∧ elapsed events + 1 < Count.bound ∧
    (c.perform (.tick 1)).result = .error (.overflow .multiplication) := by
  let config : Config := { capacity := 10, timeout := 1844674407370955162, maxResends := 3, isn := some ⟨1000⟩ }
  let calls : List Call := [.connect,
    .segment { syn := true, ack := true, seqno := ⟨5000⟩, ackno := ⟨1001⟩, window := 100 }, .finish,
    .segment { fin := true, ack := true, seqno := ⟨5001⟩, ackno := ⟨1002⟩, window := 100 }]
  have seen : (do
      let log ← record (initial config ⟨1000⟩) calls
      match (log.2.perform (.tick 1)).result with
      | .error fault => return (log.2.config, elapsed log.1, some fault)
      | .ok _ => return (log.2.config, elapsed log.1, none) : Except Fault (Config × Nat × Option Fault)) =
      .ok (config, 0, some (.overflow .multiplication)) := by decide +kernel
  rw [bind_eq_ok] at seen
  obtain ⟨⟨events, c⟩, logged, look⟩ := seen
  have opens : new? config ⟨1000⟩ = .ok (.ok (initial config ⟨1000⟩)) :=
    new?_eq_ok_iff.mpr ⟨rfl, by decide, by decide⟩
  have traced : Traced ByteStream.Call.reads events c :=
    (Traced.opened opens).record (by simp [calls, Call.within]) logged
  split at look
  case h_1 fault ticked =>
    simp only [pure_eq_ok, Prod.mk.injEq, Option.some.injEq] at look
    obtain ⟨config_eq, told, rfl⟩ := look
    exact ⟨config, events, c, rfl, config_eq, traced, by rw [told]; decide, ticked⟩
  case h_2 =>
    simp only [pure_eq_ok, Prod.mk.injEq, reduceCtorEq, and_false] at look

end Connection
end TcpStack

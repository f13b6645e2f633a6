import TcpStack.Proofs.UdpStream.Requests

/-! What a stream tells its application. The events of a stream make sense in their order, each of those that
come once comes once at most, and what they hand on is what came in, neither more nor less. -/

namespace TcpStack

namespace Event

def fails : Event → Bool
  | .failed _ => true
  | _ => false

def payload : Event → Bytes
  | .received bytes => bytes
  | _ => []

/-- Nothing comes behind a failure, and no data behind the end of the data. -/
def Precedes (earlier later : Event) : Prop :=
  earlier.fails = false ∧ (earlier = .disconnected → ∀ bytes, later ≠ .received bytes)

end Event

namespace UdpStream

open Outcome

def received (told : List Event) : Bytes := told.flatMap Event.payload

@[simp] theorem received_append (told more : List Event) :
    received (told ++ more) = received told ++ received more := List.flatMap_append

@[simp] theorem received_singleton (event : Event) : received [event] = event.payload :=
  List.flatMap_singleton _ event

theorem received_concat_of_silent {told : List Event} {event : Event} (silent : event.payload = []) :
    received (told ++ [event]) = received told := by
  rw [received_append, received_singleton, silent, List.append_nil]

variable {told handed : List Event} {gained : Bytes} {st after : UdpStream} {c : Connection}
  {host host' : Net.Host}

/-- Each of the events that come once comes once at most, no data is empty, and the order is right. -/
structure Orderly (st : UdpStream) (told : List Event) : Prop where
  connected : told.count .connected = st.connectTold.toNat
  disconnected : told.count .disconnected = st.disconnectTold.toNat
  failed : told.countP Event.fails = st.failureTold.toNat
  full : .received [] ∉ told
  ordered : told.Pairwise Event.Precedes

theorem Orderly.going (orderly : Orderly st told) (unfailed : st.failureTold = false) :
    ∀ event ∈ told, event.fails = false := by
  have none := orderly.failed
  rw [unfailed, Bool.toNat_false, List.countP_eq_zero] at none
  exact fun event member => Bool.eq_false_iff.mpr (none event member)

theorem Orderly.concat (orderly : Orderly st told) {event : Event} (unfailed : st.failureTold = false)
    (open' : ∀ bytes, event = .received bytes → bytes ≠ [] ∧ st.disconnectTold = false)
    (connected : after.connectTold.toNat = st.connectTold.toNat + [event].count .connected)
    (disconnected : after.disconnectTold.toNat = st.disconnectTold.toNat + [event].count .disconnected)
    (failed : after.failureTold.toNat = st.failureTold.toNat + [event].countP Event.fails) :
    Orderly after (told ++ [event]) := by
  refine ⟨?_, ?_, ?_, ?_, ?_⟩
  · rw [List.count_append, orderly.connected, connected]
  · rw [List.count_append, orderly.disconnected, disconnected]
  · rw [List.countP_append, orderly.failed, failed]
  · rw [List.mem_append, List.mem_singleton, not_or]
    exact ⟨orderly.full, fun empty => (open' [] empty.symm).1 rfl⟩
  · refine List.pairwise_append.mpr ⟨orderly.ordered, List.pairwise_singleton _ _, ?_⟩
    intro earlier member later here
    rw [List.mem_singleton.mp here]
    refine ⟨orderly.going unfailed earlier member, ?_⟩
    rintro rfl bytes same
    have once := orderly.disconnected
    rw [(open' bytes same).2, Bool.toNat_false, List.count_eq_zero] at once
    exact once member

/-- What was told of a connection, against the bytes that it has gained. -/
structure Narrates (st : UdpStream) (c : Connection) (gained : Bytes) (told : List Event) : Prop where
  reachable : c.Reachable ByteStream.Call.reads
  orderly : Orderly st told
  payload : received told ++ c.inbound.toList = gained
  closed : st.disconnectTold = true → c.inbound.ended = true ∧ c.inbound.toList = []
  dead : st.failureTold = true → c.cause ≠ none ∧ c.inbound.toList = []

theorem Narrates.of_same (narrates : Narrates st c gained told) (connected : after.connectTold = st.connectTold)
    (disconnected : after.disconnectTold = st.disconnectTold)
    (failed : after.failureTold = st.failureTold) : Narrates after c gained told := by
  obtain ⟨reachable, orderly, payload, closed, dead⟩ := narrates
  refine ⟨reachable, ⟨connected ▸ orderly.connected, disconnected ▸ orderly.disconnected,
    failed ▸ orderly.failed, orderly.full, orderly.ordered⟩, payload, disconnected ▸ closed, failed ▸ dead⟩

section telling

variable {news : List Event} {c' : Connection}

theorem Narrates.alive (narrates : Narrates st c gained told) (live : c.cause = none ∨ c.inbound.toList ≠ []) :
    st.failureTold = false := by
  refine Bool.eq_false_iff.mpr fun failed => ?_
  obtain ⟨cause, empty⟩ := narrates.dead failed
  exact live.elim cause (absurd empty)

/-- A sender that has failed is in no state that counts as open. -/
theorem Narrates.alive_of_isOpen (narrates : Narrates st c gained told) (opens : isOpen c.summary = true) :
    st.failureTold = false := by
  refine Bool.eq_false_iff.mpr fun failed => ?_
  have stopped := narrates.reachable.stopped_of_cause (narrates.dead failed).1
  have error : c.summary.sender = .error := Sender.error_iff.mpr stopped.2.2
  unfold isOpen at opens
  simp [error] at opens

theorem Narrates.connects (narrates : Narrates st c gained told) :
    Narrates { st with connectTold := st.connectTold || isOpen c.summary } c gained
      (told ++ if !st.connectTold && isOpen c.summary then [.connected] else []) := by
  by_cases first : (!st.connectTold && isOpen c.summary) = true
  · rw [if_pos first]
    simp only [Bool.and_eq_true, Bool.not_eq_true'] at first
    have unfailed := narrates.alive_of_isOpen first.2
    refine ⟨narrates.reachable, ?_, ?_, narrates.closed, narrates.dead⟩
    · exact narrates.orderly.concat unfailed (by simp) (by simp [first]) (by simp) (by simp [Event.fails])
    · rw [received_concat_of_silent rfl]
      exact narrates.payload
  · rw [if_neg first, List.append_nil]
    refine narrates.of_same ?_ rfl rfl
    change (st.connectTold || isOpen c.summary) = st.connectTold
    cases known : st.connectTold with
    | true => rfl
    | false => simpa [known] using first

theorem Narrates.takesOut (narrates : Narrates st c gained told) (takesOut : TakesOut c news c') :
    Narrates st c' gained (told ++ news) ∧ c'.inbound.toList = [] := by
  cases takesOut with
  | nothing empty =>
    refine ⟨by rwa [List.append_nil], List.length_eq_zero_iff.mp ?_⟩
    exact (ByteStream.length_toList _).trans (beq_iff_eq.mp empty)
  | @bytes output bytes full reads =>
    obtain ⟨rfl, drops⟩ := ByteStream.read_drops narrates.reachable.settled.intact.inbound reads
    have all : c.inbound.toList.take c.inbound.size = c.inbound.toList := by
      rw [← ByteStream.length_toList, List.take_length]
    have none : output.toList = [] := by
      rw [drops.toList_eq, ← ByteStream.length_toList, List.drop_length]
    have some : c.inbound.toList ≠ [] := by
      intro none
      have size_eq : c.inbound.size = 0 := by rw [← ByteStream.length_toList, none]; rfl
      exact Bool.eq_false_iff.mp full (beq_iff_eq.mpr size_eq)
    rw [all] at reads ⊢
    have unfailed := narrates.alive (Or.inr some)
    have unclosed : st.disconnectTold = false :=
      Bool.eq_false_iff.mpr fun closed => some (narrates.closed closed).2
    have performs : (c.perform (.inbound (.read c.inbound.size))).result =
        .ok (c.withInbound output, .bytes c.inbound.toList) := by
      have reads : c.receiver.reassembler.output.read c.inbound.size = .ok (output, c.inbound.toList) := reads
      simp [Connection.perform, Receiver.performStream, ByteStream.perform, reads, Connection.withInbound]
    refine ⟨⟨narrates.reachable.called rfl performs, ?_, ?_, ?_, ?_⟩, none⟩
    · refine narrates.orderly.concat unfailed ?_ (by simp) (by simp) (by simp [Event.fails])
      rintro _ ⟨rfl⟩
      exact ⟨some, unclosed⟩
    · rw [received_append, received_singleton, ← narrates.payload]
      change received told ++ c.inbound.toList ++ output.toList = _
      rw [none, List.append_nil]
    · intro closed
      exact absurd closed (Bool.eq_false_iff.mp unclosed)
    · intro failed
      exact absurd failed (Bool.eq_false_iff.mp unfailed)

theorem Narrates.disconnects (narrates : Narrates st c gained told) (empty : c.inbound.toList = []) :
    Narrates { st with disconnectTold := st.disconnectTold || (c.inbound.atEnd && !c.inbound.failed) } c gained
      (told ++ if !st.disconnectTold && (c.inbound.atEnd && !c.inbound.failed) then [.disconnected] else []) := by
  by_cases first : (!st.disconnectTold && (c.inbound.atEnd && !c.inbound.failed)) = true
  · rw [if_pos first]
    simp only [Bool.and_eq_true, Bool.not_eq_true'] at first
    obtain ⟨first, atEnd, spared⟩ := first
    have ended : c.inbound.ended = true := (Bool.and_eq_true_iff.mp atEnd).1
    have unfailed : st.failureTold = false := by
      refine Bool.eq_false_iff.mpr fun failed => ?_
      have stopped := narrates.reachable.stopped_of_cause (narrates.dead failed).1
      exact Bool.eq_false_iff.mp spared stopped.2.1
    refine ⟨narrates.reachable, ?_, ?_, fun _ => ⟨ended, empty⟩, narrates.dead⟩
    · exact narrates.orderly.concat unfailed (by simp) (by simp) (by simp [first, atEnd, spared])
        (by simp [Event.fails])
    · rw [received_concat_of_silent rfl]
      exact narrates.payload
  · rw [if_neg first, List.append_nil]
    refine narrates.of_same rfl ?_ rfl
    change (st.disconnectTold || (c.inbound.atEnd && !c.inbound.failed)) = st.disconnectTold
    cases known : st.disconnectTold with
    | true => rfl
    | false => simpa [known] using first

theorem Narrates.fails (narrates : Narrates st c gained told) (empty : c.inbound.toList = []) :
    Narrates { st with failureTold := st.failureTold || c.cause.isSome } c gained
      (told ++ if st.failureTold then [] else c.cause.toList.map Event.failed) := by
  cases known : st.failureTold with
  | true =>
    rw [if_pos rfl, List.append_nil]
    exact narrates.of_same rfl rfl known.symm
  | false =>
    rw [if_neg Bool.false_ne_true]
    cases hcause : c.cause with
    | none =>
      rw [Option.toList_none, List.map_nil, List.append_nil]
      exact narrates.of_same rfl rfl known.symm
    | some cause =>
      refine ⟨narrates.reachable, ?_, ?_, narrates.closed, fun _ => ⟨?_, empty⟩⟩
      · exact narrates.orderly.concat known (by simp) (by simp) (by simp) (by simp [Event.fails, known])
      · rw [Option.toList_some, List.map_singleton, received_concat_of_silent rfl]
        exact narrates.payload
      · rw [hcause]
        exact Option.some_ne_none cause

end telling

/-- What a stream has told and what it still knows of it, between two steps. Nothing waits to be told. -/
structure CaughtUp (handed : List Event) (gained : Bytes) (st : UdpStream) : Prop where
  valid : st.config.connection.validate = .ok ()
  alone : st.connection = none → handed ++ st.events = [] ∧ gained = [] ∧ st.connectTold = false ∧
    st.disconnectTold = false ∧ st.failureTold = false
  narrates : ∀ c, st.connection = some c →
    Narrates st c gained (handed ++ st.events) ∧ c.inbound.toList = []

theorem Narrates.informs (narrates : Narrates st c gained (handed ++ st.events))
    (valid : st.config.connection.validate = .ok ()) (informs : Informs st c after) : CaughtUp handed gained after := by
  cases informs with
  | informs takesOut =>
    obtain ⟨read, empty⟩ := narrates.connects.takesOut takesOut
    have last := (read.disconnects empty).fails empty
    refine ⟨valid, fun none => ?_, fun other found => ?_⟩
    · cases none
    cases found
    simp only [List.append_assoc] at last ⊢
    exact ⟨last.of_same rfl rfl rfl, empty⟩

theorem Narrates.emptied (narrates : Narrates st c gained told) (base : UdpStream) :
    Narrates st (base.emptied c) gained told ∧ (base.emptied c).inbound = c.inbound := by
  obtain ⟨count, emptied⟩ := emptied_eq_drop base c
  rw [emptied]
  exact ⟨⟨narrates.reachable.emitted count, narrates.orderly, narrates.payload, narrates.closed, narrates.dead⟩, rfl⟩

theorem Narrates.grows {c' : Connection} {delivered : Bytes} (narrates : Narrates st c gained told)
    (reachable : c'.Reachable ByteStream.Call.reads) (grows : c.Grows delivered c')
    (stopped : c.cause ≠ none → c' = c) : Narrates st c' (gained ++ delivered) told := by
  refine ⟨reachable, narrates.orderly, ?_, fun closed => ?_, fun failed => ?_⟩
  · rw [grows.toList_eq, ← List.append_assoc, narrates.payload]
  · obtain ⟨ended, empty⟩ := narrates.closed closed
    obtain ⟨ended', rfl⟩ := grows.ended ended
    exact ⟨ended', by rw [grows.toList_eq, empty, List.append_nil]⟩
  · obtain ⟨cause, empty⟩ := narrates.dead failed
    rw [stopped cause]
    exact ⟨cause, empty⟩

theorem Narrates.outward {c' : Connection} {call : Connection.Call} {reply : Reply}
    (narrates : Narrates st c gained told) (outward : call.outward = true)
    (h : (c.perform call).result = .ok (c', reply)) :
    Narrates st c' gained told ∧ c'.inbound.toList = c.inbound.toList := by
  have reachable := narrates.reachable
  have within : call.within ByteStream.Call.reads = true ∧ call.within (fun _ => false) = true := by
    cases call with
    | inbound => cases outward
    | connect | write | finish | abort | segment | tick => exact ⟨rfl, rfl⟩
  have grows := reachable.outward_grows outward h
  have kept := narrates.grows (reachable.called within.1 h) grows fun cause =>
    reachable.perform_of_cause cause within.2 h
  rw [List.append_nil] at kept
  exact ⟨kept, by rw [grows.toList_eq, List.append_nil]⟩

theorem Narrates.settles {call : Connection.Call} {more : Bytes} (settles : Settles st host c call after host')
    (valid : st.config.connection.validate = .ok ())
    (step : ∀ c' reply, (c.perform call).result = .ok (c', reply) →
      Narrates st c' (gained ++ more) (handed ++ st.events)) : CaughtUp handed (gained ++ more) after := by
  cases settles with
  | @settles c' _ _ _ performs _ informs =>
    have emptied := ((step _ _ performs).emptied st).1
    have alike : Narrates { st with connection := some (st.emptied c') } (st.emptied c') (gained ++ more)
      (handed ++ st.events) := emptied.of_same rfl rfl rfl
    exact alike.informs valid informs

theorem Narrates.pass {segment : Segment} (narrates : Narrates st c gained (handed ++ st.events))
    (valid : st.config.connection.validate = .ok ()) (settles : Settles st host c (.segment segment) after host') :
    CaughtUp handed (gained ++ c.gains segment) after := by
  refine Narrates.settles settles valid fun c' reply performs => ?_
  have reachable := narrates.reachable
  have result : (c.segmentReceived segment).result = .ok c' := by
    obtain ⟨_, does⟩ := Connection.perform_eq_ok_iff.mp performs
    cases does with
    | receives receives => exact Connection.segmentReceived_eq_ok_iff.mpr ⟨_, receives⟩
  exact narrates.grows (reachable.called rfl performs) (reachable.gains_grows result)
    fun cause => reachable.perform_of_cause cause rfl performs

theorem new?_of_newConnection {peer : Net.Address} {clock : Nat} (valid : st.config.connection.validate = .ok ())
    (made : st.newConnection peer clock = .ok c) : ∃ isn, Connection.new? st.config.connection isn = .ok (.ok c) := by
  obtain ⟨isn, rfl, fits⟩ := newConnection_eq_ok made
  exact ⟨isn, Connection.new?_eq_ok_iff.mpr ⟨rfl, Config.validate_eq_ok_iff.mp valid, fits⟩⟩

theorem CaughtUp.opens (caughtUp : CaughtUp handed gained st) (alone : st.connection = none)
    {peer : Net.Address} {clock : Nat} (h : st.newConnection peer clock = .ok c) :
    Narrates st c gained (handed ++ st.events) ∧ gained = [] ∧ c.inbound.toList = [] := by
  obtain ⟨silent, rfl, connected, disconnected, failed⟩ := caughtUp.alone alone
  obtain ⟨isn, opens⟩ := new?_of_newConnection caughtUp.valid h
  obtain ⟨rfl, -⟩ := Connection.new?_eq_ok_iff.mp opens
  have none : (Connection.initial st.config.connection isn).inbound.toList = [] := ByteStream.toList_ofCapacity _
  rw [silent]
  refine ⟨⟨.opened opens, ⟨?_, ?_, ?_, by simp, List.Pairwise.nil⟩, none, ?_, ?_⟩, rfl, none⟩
  · rw [connected]; rfl
  · rw [disconnected]; rfl
  · rw [failed]; rfl
  · simp [disconnected]
  · simp [failed]

theorem CaughtUp.arrives (caughtUp : CaughtUp handed gained st) {arrival : Net.Arrival}
    (h : st.handleArrival host arrival = .ok (after, host')) :
    CaughtUp handed (gained ++ st.gains host arrival) after := by
  have same : CaughtUp handed (gained ++ []) st := by rwa [List.append_nil]
  unfold gains
  cases handleArrival_handles h with
  | drops malformed =>
    rw [malformed]
    exact same
  | handles frame handles =>
    rw [frame]
    simp only
    cases handles with
    | ignores stranger =>
      rw [if_pos stranger]
      exact same
    | waits fits alone other =>
      rw [if_neg (Bool.eq_false_iff.mp fits), alone]
      simp only [← not_knocks, other, Bool.not_false, if_true]
      exact same
    | @opens c _ _ fits alone knock made settles =>
      rw [if_neg (Bool.eq_false_iff.mp fits), alone]
      simp only [← not_knocks, knock, Bool.not_true, Bool.false_eq_true, if_false, made]
      obtain ⟨narrates, -⟩ := caughtUp.opens alone made
      have alike : Narrates { st with peer := some arrival.source } c gained (handed ++ st.events) :=
        narrates.of_same rfl rfl rfl
      exact alike.pass caughtUp.valid settles
    | passes fits found settles =>
      rw [if_neg (Bool.eq_false_iff.mp fits), found]
      exact (caughtUp.narrates _ found).1.pass caughtUp.valid settles

theorem CaughtUp.ages (caughtUp : CaughtUp handed gained st)
    (h : st.passTime host = .ok (after, host')) : CaughtUp handed gained after := by
  cases passTime_passes h with
  | stands => exact caughtUp
  | idles _ alone =>
    refine ⟨caughtUp.valid, fun _ => caughtUp.alone alone, fun c found => ?_⟩
    cases alone.symm.trans found
  | @ages c _ _ _ found settles =>
    have narrates := (caughtUp.narrates c found).1
    have alike : Narrates { st with lastTick := st.epoch.millis host.clock } c gained (handed ++ st.events) :=
      narrates.of_same rfl rfl rfl
    rw [← List.append_nil gained]
    refine Narrates.settles settles caughtUp.valid fun c' reply performs => ?_
    rw [List.append_nil]
    exact (alike.outward rfl performs).1

theorem CaughtUp.hands (caughtUp : CaughtUp handed gained st) {event : Event} {rest : List Event}
    (next : st.events = event :: rest) : CaughtUp (handed ++ [event]) gained { st with events := rest } := by
  have same : handed ++ [event] ++ rest = handed ++ st.events := by
    rw [next, List.append_assoc, List.singleton_append]
  refine ⟨caughtUp.valid, fun alone => ?_, fun c connection => ?_⟩
  · rw [same]
    exact caughtUp.alone alone
  · rw [same]
    obtain ⟨narrates, empty⟩ := caughtUp.narrates c connection
    exact ⟨narrates.of_same rfl rfl rfl, empty⟩

theorem Narrates.sends {call : Connection.Call} (narrates : Narrates st c gained (handed ++ st.events))
    (empty : c.inbound.toList = []) (valid : st.config.connection.validate = .ok ()) (outward : call.outward = true)
    (sends : Sends st host c call after host') : CaughtUp handed gained after := by
  cases sends with
  | sends performs =>
    obtain ⟨narrates', same⟩ := narrates.outward outward performs
    obtain ⟨emptied, same'⟩ := narrates'.emptied st
    refine ⟨valid, fun none => ?_, fun other found => ?_⟩
    · cases none
    cases found
    exact ⟨emptied.of_same rfl rfl rfl, (congrArg ByteStream.toList same').trans (same.trans empty)⟩

theorem CaughtUp.obeys {call : Connection.Call} (caughtUp : CaughtUp handed gained st) (outward : call.outward = true)
    (obeys : Obeys st host call after host') : CaughtUp handed gained after := by
  cases obeys with
  | idles => exact caughtUp
  | sends found sends =>
    obtain ⟨narrates, empty⟩ := caughtUp.narrates _ found
    exact narrates.sends empty caughtUp.valid outward sends

theorem CaughtUp.opening {peer : Net.Address} (caughtUp : CaughtUp handed gained st) (alone : st.connection = none)
    (h : st.opening peer host = .ok (after, host')) : CaughtUp handed gained after := by
  obtain ⟨c, made, sends⟩ := opening_sends h
  obtain ⟨narrates, -, empty⟩ := caughtUp.opens alone made
  have alike : Narrates { st with peer := some peer } c gained (handed ++ st.events) := narrates.of_same rfl rfl rfl
  exact alike.sends empty caughtUp.valid rfl sends

theorem caughtUp_of_bindAt {config : StreamConfig} {address : Net.Address}
    (h : bindAt config address host = .ok (st, host')) :
    CaughtUp [] [] st ∧ st.connection = none := by
  obtain ⟨-, valid, _, rfl, -⟩ := bindAt_eq_ok h
  exact ⟨⟨valid, fun _ => ⟨rfl, rfl, rfl, rfl, rfl⟩, fun c none => by cases none⟩, rfl⟩

theorem Ran.caughtUp (ran : Ran handed gained st) : CaughtUp handed gained st := by
  induction ran with
  | listens binds => exact (caughtUp_of_bindAt binds).1
  | connects binds opens =>
    obtain ⟨caughtUp, alone⟩ := caughtUp_of_bindAt binds
    exact caughtUp.opening alone opens
  | arrives _ h ih => exact ih.arrives h
  | ages _ h ih => exact ih.ages h
  | hands _ next ih => exact ih.hands next
  | writes _ h ih => exact ih.obeys rfl (write_obeys h)
  | finishes _ h ih => exact ih.obeys rfl (finish_obeys h)
  | aborts _ h ih => exact ih.obeys rfl (abort_obeys h)

/-- The events of a stream form a legal history. Whatever came in and whatever was asked, it has told at most
once that it is connected, that the peer has finished and that it has failed; behind the end of the data
comes no data, and behind a failure nothing; no data is empty, and all of it together is what was put into
the inbound stream. The end is told only of a stream that has ended and was read to the end. A run begins
with listening or connecting, and every request leads from one to another. -/
theorem events_tell_history :
    (∀ config names host st host', listen config names host = .ok (st, host') → Ran [] [] st) ∧
    (∀ config names host st host', connect config names host = .ok (.ok (st, host')) → Ran [] [] st) ∧
    (∀ handed gained st host request events after host', Ran handed gained st →
      st.ask host request = .ok (events, after, host') →
      ∃ more, Ran (handed ++ events) (gained ++ more) after) ∧
    ∀ handed gained st, Ran handed gained st →
      (handed ++ st.events).count .connected ≤ 1 ∧ (handed ++ st.events).count .disconnected ≤ 1 ∧
      (handed ++ st.events).countP Event.fails ≤ 1 ∧
      (∀ earlier event later, handed ++ st.events = earlier ++ event :: later →
        (event = .disconnected → ∀ bytes, .received bytes ∉ later) ∧
        (event.fails = true → later = [])) ∧
      .received [] ∉ handed ++ st.events ∧ received (handed ++ st.events) = gained ∧
      (.disconnected ∈ handed ++ st.events → ∃ c, st.connection = some c ∧ c.inbound.ended = true ∧
        c.inbound.toList = []) := by
  refine ⟨fun _ _ _ _ _ h => listen_ran h, fun _ _ _ _ _ h => connect_ran h,
    fun _ _ _ _ _ _ _ _ ran h => ran.ask h, fun handed gained st ran => ?_⟩
  have caughtUp := ran.caughtUp
  rcases Option.eq_none_or_eq_some st.connection with alone | ⟨c, connection⟩
  · obtain ⟨silent, rfl, -⟩ := caughtUp.alone alone
    rw [silent]
    refine ⟨by simp, by simp, by simp, ?_, by simp, rfl, by simp⟩
    intro earlier event later split
    simp at split
  obtain ⟨narrates, empty⟩ := caughtUp.narrates c connection
  obtain ⟨connected, disconnected, failed, full, ordered⟩ := narrates.orderly
  refine ⟨connected ▸ Bool.toNat_le _, disconnected ▸ Bool.toNat_le _, failed ▸ Bool.toNat_le _, ?_, full,
    ?_, fun member => ⟨c, connection, narrates.closed ?_⟩⟩
  · intro earlier event later split
    rw [split, List.pairwise_append, List.pairwise_cons] at ordered
    obtain ⟨-, ⟨precedes, -⟩, -⟩ := ordered
    refine ⟨fun last bytes member => (precedes _ member).2 last bytes rfl, fun fails => ?_⟩
    refine List.eq_nil_iff_forall_not_mem.mpr fun other member => ?_
    exact absurd fails (Bool.eq_false_iff.mp (precedes other member).1)
  · have payload := narrates.payload
    rwa [empty, List.append_nil] at payload
  · by_contra untold
    rw [Bool.eq_false_iff.mpr untold, Bool.toNat_false, List.count_eq_zero] at disconnected
    exact disconnected member

def inn : UdpStream :=
  { config := { connection := { capacity := 8, isn := some ⟨1000⟩ } }, epoch := ⟨0, 0⟩, key := [],
    socket := 0, home := ⟨.v4 10 0 0 1, 4000⟩ }

def station (inbox : List Net.Arrival) : Net.Host :=
  { limit := 0, key := [], sockets := [{ address := ⟨.v4 10 0 0 1, 4000⟩, inbox }] }

theorem ran_inn : Ran [] [] inn := by
  have binds : bindAt { connection := { capacity := 8, isn := some ⟨1000⟩ } } ⟨.v4 10 0 0 1, 4000⟩
      { limit := 0, key := [] } = .ok (inn, station []) := rfl
  exact .listens binds

theorem history_of_visit : ∃ gained st, Ran
      [.connected, .received [97, 98, 99], .disconnected, .failed .byPeer] gained st ∧
    st.events = [] ∧ gained = [97, 98, 99] ∧ ∃ c, st.connection = some c ∧ c.inbound.ended = true ∧
      c.inbound.toList = [] := by
  have seen : (fun (events, st, _) => (events, st.events)) <$> inn.ask (station (
      [(9, { syn := true, seqno := ⟨5000⟩, window := 100 }), (7, { syn := true, seqno := ⟨5000⟩ }),
        (9, { ack := true, fin := true, seqno := ⟨5001⟩, ackno := ⟨1001⟩, window := 100,
              payload := [97, 98, 99] }),
        (9, { rst := true, seqno := ⟨5005⟩ })].map fun (last, segment) =>
          ⟨0, ⟨.v4 10 0 0 last, 9000⟩, Segment.toFrame segment⟩)) .pollAll =
      .ok ([.connected, .received [97, 98, 99], .disconnected, .failed .byPeer], []) := by
    decide +kernel
  obtain ⟨⟨events, st, host⟩, asks, look⟩ := map_eq_ok.mp seen
  simp only [Prod.mk.injEq] at look
  obtain ⟨rfl, none⟩ := look
  obtain ⟨gained, ran⟩ := events_tell_history.2.2.1 _ _ _ _ _ _ _ _ ran_inn asks
  obtain ⟨-, -, -, -, -, payload, finished⟩ := events_tell_history.2.2.2 _ _ _ ran
  rw [none] at payload finished
  exact ⟨_, st, ran, none, payload.symm, finished (by simp)⟩

end UdpStream
end TcpStack

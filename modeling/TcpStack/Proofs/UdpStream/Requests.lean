import TcpStack.Proofs.UdpStream.Run

/-! How a stream serves a request, exactly: what of the inbox it takes in, when it lets the time pass, and which calls
on its connection that comes to, in order. A loop of the stream is taken apart here and nowhere else. Whatever holds
of the single steps, and can be put together, follows for every request. -/

namespace TcpStack.UdpStream

open Outcome

inductive TakesIn : List Net.Arrival → UdpStream → Net.Host → List Connection.Call → UdpStream → Net.Host → Prop
  | nothing {st : UdpStream} {host : Net.Host} : TakesIn [] st host [] st host
  | next {arrival : Net.Arrival} {rest : List Net.Arrival} {st middle after : UdpStream}
      {host between host' : Net.Host} {calls : List Connection.Call}
      (handles : st.handleArrival host arrival = .ok (middle, between))
      (takes : TakesIn rest middle between calls after host') :
      TakesIn (arrival :: rest) st host (st.callsOfArrival arrival ++ calls) after host'

/-- All that is due is taken in, and then the time passes. -/
inductive CatchesUp (st : UdpStream) (host : Net.Host) : List Connection.Call → UdpStream → Net.Host → Prop
  | works {due : List Net.Arrival} {left between host' : Net.Host} {middle after : UdpStream}
      {calls : List Connection.Call} (receives : host.receiveDue st.socket = (due, left))
      (takes : TakesIn due st left calls middle between) (ages : middle.passTime between = .ok (after, host')) :
      CatchesUp st host (calls ++ middle.callsOfTime between.clock) after host'

inductive TakesTurn (timeout : Nat) (st : UdpStream) (host : Net.Host) :
    (stalled : Bool) → List Connection.Call → UdpStream → Net.Host → Prop
  | stalls {woken : Net.Host} (waits : host.wait st.socket timeout = (woken, .stalled)) :
      TakesTurn timeout st host true [] st woken
  | works {woken host' : Net.Host} {after : UdpStream} {calls : List Connection.Call}
      (waits : host.wait st.socket timeout = (woken, .readable)) (works : CatchesUp st woken calls after host') :
      TakesTurn timeout st host false calls after host'
  | ages {woken host' : Net.Host} {after : UdpStream} (waits : host.wait st.socket timeout = (woken, .quiet))
      (ages : st.passTime woken = .ok (after, host')) :
      TakesTurn timeout st host false (st.callsOfTime woken.clock) after host'

inductive WaitsOn : (tries : Nat) → UdpStream → Net.Host → Waited → List Connection.Call → UdpStream →
    Net.Host → Prop
  | tires {st : UdpStream} {host : Net.Host} : WaitsOn 0 st host .stalled [] st host
  | finds {tries : Nat} {st : UdpStream} {host : Net.Host} {event : Event} {rest : List Event}
      (next : st.events = event :: rest) :
      WaitsOn (tries + 1) st host (.event event) [] { st with events := rest } host
  | stalls {tries : Nat} {st after : UdpStream} {host host' : Net.Host} {calls : List Connection.Call}
      (empty : st.events = []) (turn : TakesTurn st.pollMicros st host true calls after host') :
      WaitsOn (tries + 1) st host .stalled calls after host'
  | turns {tries : Nat} {st middle after : UdpStream} {host between host' : Net.Host} {waited : Waited}
      {calls more : List Connection.Call} (empty : st.events = [])
      (turn : TakesTurn st.pollMicros st host false calls middle between)
      (goes : WaitsOn tries middle between waited more after host') :
      WaitsOn (tries + 1) st host waited (calls ++ more) after host'

inductive WaitsUntil : (tries remaining : Nat) → UdpStream → Net.Host → Waited → List Connection.Call → UdpStream →
    Net.Host → Prop
  | tires {remaining : Nat} {st : UdpStream} {host : Net.Host} : WaitsUntil 0 remaining st host .timedOut [] st host
  | stalls {tries remaining : Nat} {st after : UdpStream} {host host' : Net.Host} {calls : List Connection.Call}
      (turn : TakesTurn (min remaining st.pollMicros) st host true calls after host') :
      WaitsUntil (tries + 1) remaining st host .stalled calls after host'
  | finds {tries remaining : Nat} {st worked : UdpStream} {host host' : Net.Host} {calls : List Connection.Call}
      {event : Event} {rest : List Event}
      (turn : TakesTurn (min remaining st.pollMicros) st host false calls worked host')
      (next : worked.events = event :: rest) :
      WaitsUntil (tries + 1) remaining st host (.event event) calls { worked with events := rest } host'
  | lapses {tries remaining : Nat} {st worked : UdpStream} {host host' : Net.Host} {calls : List Connection.Call}
      (turn : TakesTurn (min remaining st.pollMicros) st host false calls worked host') (empty : worked.events = [])
      (late : remaining ≤ host'.clock - host.clock) :
      WaitsUntil (tries + 1) remaining st host .timedOut calls worked host'
  | turns {tries remaining : Nat} {st middle after : UdpStream} {host between host' : Net.Host} {waited : Waited}
      {calls more : List Connection.Call}
      (turn : TakesTurn (min remaining st.pollMicros) st host false calls middle between) (empty : middle.events = [])
      (early : between.clock - host.clock < remaining)
      (goes : WaitsUntil tries (remaining - (between.clock - host.clock)) middle between waited more after host') :
      WaitsUntil (tries + 1) remaining st host waited (calls ++ more) after host'

/-- How a request is served: these events are handed out, and these calls are made on the connection. -/
inductive Serves (st : UdpStream) (host : Net.Host) : Request → List Event → List Connection.Call → UdpStream →
    Net.Host → Prop
  | finds {event : Event} {rest : List Event} (next : st.events = event :: rest) :
      Serves st host .poll [event] [] { st with events := rest } host
  | polls {calls : List Connection.Call} {worked : UdpStream} {host' : Net.Host} (empty : st.events = [])
      (works : CatchesUp st host calls worked host') :
      Serves st host .poll worked.nextEvent.1.toList calls worked.nextEvent.2 host'
  | pollsAll {calls : List Connection.Call} {worked : UdpStream} {host' : Net.Host}
      (works : CatchesUp { st with events := [] } host calls worked host') :
      Serves st host .pollAll (st.events ++ worked.events) calls { worked with events := [] } host'
  | waits {waited : Waited} {calls : List Connection.Call} {after : UdpStream} {host' : Net.Host}
      (goes : WaitsOn (host.limit - host.clock + (host.inbox st.socket).length + 2) st host waited calls after
        host') : Serves st host .wait waited.told calls after host'
  | findsFirst {timeout : Nat} {event : Event} {rest : List Event} (next : st.events = event :: rest) :
      Serves st host (.waitFor timeout) [event] [] { st with events := rest } host
  | waitsFor {timeout : Nat} {waited : Waited} {calls : List Connection.Call} {after : UdpStream} {host' : Net.Host}
      (empty : st.events = [])
      (goes : WaitsUntil (timeout + (host.inbox st.socket).length + 1) timeout st host waited calls after host') :
      Serves st host (.waitFor timeout) waited.told calls after host'
  | writes {bytes : Bytes} {count : Nat} {after : UdpStream} {host' : Net.Host}
      (h : st.write host bytes = .ok (count, after, host')) :
      Serves st host (.write bytes) [] (st.callsOf (.write bytes)) after host'
  | finishes {after : UdpStream} {host' : Net.Host} (h : st.finish host = .ok (after, host')) :
      Serves st host .finish [] (st.callsOf .finish) after host'
  | aborts {after : UdpStream} {host' : Net.Host} (h : st.abort host = .ok (after, host')) :
      Serves st host .abort [] (st.callsOf .abort) after host'

variable {handed events more : List Event} {gained : Bytes} {st middle after : UdpStream}
  {host between host' : Net.Host} {arrivals : List Net.Arrival} {tries remaining timeout : Nat} {stalled : Bool}
  {waited : Waited} {calls : List Connection.Call} {request : Request}

section serving

theorem nextEvent_of_nil (empty : st.events = []) : st.nextEvent = (none, st) := by
  unfold nextEvent
  rw [empty]

theorem nextEvent_of_cons {event : Event} {rest : List Event} (next : st.events = event :: rest) :
    st.nextEvent = (some event, { st with events := rest }) := by
  unfold nextEvent
  rw [next]

theorem takesIn_of_foldlM
    (h : arrivals.foldlM (fun (st, host) arrival => handleArrival st host arrival) (st, host) = .ok (after, host')) :
    ∃ calls, TakesIn arrivals st host calls after host' := by
  induction arrivals generalizing st host with
  | nil =>
    cases h
    exact ⟨[], .nothing⟩
  | cons arrival rest ih =>
    rw [List.foldlM_cons, bind_eq_ok] at h
    obtain ⟨⟨middle, between⟩, handles, h⟩ := h
    obtain ⟨_, takes⟩ := ih h
    exact ⟨_, .next handles takes⟩

theorem work_catchesUp (h : st.work host = .ok (after, host')) : ∃ calls, CatchesUp st host calls after host' := by
  unfold UdpStream.work receiveDue at h
  generalize receives : host.receiveDue st.socket = taken at h
  obtain ⟨due, left⟩ := taken
  rw [bind_eq_ok] at h
  obtain ⟨⟨middle, between⟩, takes, ages⟩ := h
  obtain ⟨_, takes⟩ := takesIn_of_foldlM takes
  exact ⟨_, .works receives takes ages⟩

theorem waitAndWork_takesTurn (h : st.waitAndWork host timeout = .ok (stalled, after, host')) :
    ∃ calls, TakesTurn timeout st host stalled calls after host' := by
  unfold UdpStream.waitAndWork at h
  generalize waits : host.wait st.socket timeout = woken at h
  obtain ⟨woken, outcome⟩ := woken
  cases outcome with
  | stalled =>
    cases h
    exact ⟨_, .stalls waits⟩
  | readable =>
    simp only [bind_eq_ok, pure_eq_ok] at h
    obtain ⟨⟨worked, _⟩, works, h⟩ := h
    cases h
    obtain ⟨_, works⟩ := work_catchesUp works
    exact ⟨_, .works waits works⟩
  | quiet =>
    simp only [bind_eq_ok, pure_eq_ok] at h
    obtain ⟨⟨aged, _⟩, ages, h⟩ := h
    cases h
    exact ⟨_, .ages waits ages⟩

theorem waitWithin_waitsOn (h : st.waitWithin tries host = .ok (waited, after, host')) :
    ∃ calls, WaitsOn tries st host waited calls after host' := by
  induction tries generalizing st host with
  | zero =>
    cases h
    exact ⟨_, .tires⟩
  | succ tries ih =>
    unfold UdpStream.waitWithin at h
    cases next : st.events with
    | cons event rest =>
      rw [nextEvent_of_cons next] at h
      cases h
      exact ⟨_, .finds next⟩
    | nil =>
      rw [nextEvent_of_nil next] at h
      simp only [bind_eq_ok] at h
      obtain ⟨⟨stalled, worked, host⟩, works, h⟩ := h
      obtain ⟨_, turn⟩ := waitAndWork_takesTurn works
      cases stalled with
      | true =>
        cases h
        exact ⟨_, .stalls next turn⟩
      | false =>
        obtain ⟨_, goes⟩ := ih h
        exact ⟨_, .turns next turn goes⟩

theorem waitForWithin_waitsUntil (h : st.waitForWithin tries remaining host = .ok (waited, after, host')) :
    ∃ calls, WaitsUntil tries remaining st host waited calls after host' := by
  induction tries generalizing st host remaining with
  | zero =>
    cases h
    exact ⟨_, .tires⟩
  | succ tries ih =>
    unfold UdpStream.waitForWithin at h
    simp only [bind_eq_ok] at h
    obtain ⟨⟨stalled, worked, between⟩, works, h⟩ := h
    obtain ⟨_, turn⟩ := waitAndWork_takesTurn works
    cases stalled with
    | true =>
      cases h
      exact ⟨_, .stalls turn⟩
    | false =>
      simp only [Bool.false_eq_true, if_false] at h
      cases next : worked.events with
      | cons event rest =>
        rw [nextEvent_of_cons next] at h
        cases h
        exact ⟨_, .finds turn next⟩
      | nil =>
        rw [nextEvent_of_nil next] at h
        simp only [bind_eq_ok, Count.sub_eq_ok_iff] at h
        obtain ⟨elapsed, ⟨rfl, -⟩, h⟩ := h
        by_cases late : remaining ≤ between.clock - host.clock
        · rw [if_pos late] at h
          cases h
          exact ⟨_, .lapses turn next late⟩
        · simp only [if_neg late, bind_eq_ok, Count.sub_eq_ok_iff] at h
          obtain ⟨_, ⟨rfl, -⟩, h⟩ := h
          obtain ⟨_, goes⟩ := ih h
          exact ⟨_, .turns turn next (Nat.lt_of_not_le late) goes⟩

theorem poll_serves {event : Option Event} (h : st.poll host = .ok (event, after, host')) :
    ∃ calls, Serves st host .poll event.toList calls after host' := by
  unfold UdpStream.poll at h
  cases next : st.events with
  | nil =>
    simp only [next, List.isEmpty_nil, if_true, bind_eq_ok, pure_eq_ok] at h
    obtain ⟨⟨worked, _⟩, works, h⟩ := h
    cases h
    obtain ⟨_, works⟩ := work_catchesUp works
    exact ⟨_, .polls next works⟩
  | cons event rest =>
    simp only [next, List.isEmpty_cons, Bool.false_eq_true, if_false, pure_bind, nextEvent_of_cons next] at h
    cases h
    exact ⟨_, .finds next⟩

/-- Whatever is asked of a stream, this is how it is served. -/
theorem ask_serves (h : st.ask host request = .ok (events, after, host')) :
    ∃ calls, Serves st host request events calls after host' := by
  unfold UdpStream.ask at h
  cases request with
  | poll =>
    simp only [bind_eq_ok, pure_eq_ok] at h
    obtain ⟨⟨event, polled, _⟩, polls, h⟩ := h
    cases h
    exact poll_serves polls
  | pollAll =>
    simp only [UdpStream.pollAll, bind_eq_ok, pure_eq_ok] at h
    obtain ⟨⟨worked, _⟩, works, h⟩ := h
    cases h
    obtain ⟨_, works⟩ := work_catchesUp works
    exact ⟨_, .pollsAll works⟩
  | wait =>
    simp only [bind_eq_ok, pure_eq_ok] at h
    obtain ⟨⟨waited, worked, _⟩, waits, h⟩ := h
    cases h
    obtain ⟨_, goes⟩ := waitWithin_waitsOn waits
    exact ⟨_, .waits goes⟩
  | waitFor timeout =>
    simp only [bind_eq_ok, pure_eq_ok] at h
    obtain ⟨⟨waited, worked, _⟩, waits, h⟩ := h
    cases h
    unfold UdpStream.waitFor at waits
    cases next : st.events with
    | nil =>
      rw [nextEvent_of_nil next] at waits
      obtain ⟨_, goes⟩ := waitForWithin_waitsUntil waits
      exact ⟨_, .waitsFor next goes⟩
    | cons event rest =>
      rw [nextEvent_of_cons next] at waits
      cases waits
      exact ⟨_, .findsFirst next⟩
  | write bytes =>
    simp only [bind_eq_ok, pure_eq_ok] at h
    obtain ⟨⟨count, written, _⟩, writes, h⟩ := h
    cases h
    exact ⟨_, .writes writes⟩
  | finish =>
    simp only [bind_eq_ok, pure_eq_ok] at h
    obtain ⟨⟨finished, _⟩, finishes, h⟩ := h
    cases h
    exact ⟨_, .finishes finishes⟩
  | abort =>
    simp only [bind_eq_ok, pure_eq_ok] at h
    obtain ⟨⟨aborted, _⟩, aborts, h⟩ := h
    cases h
    exact ⟨_, .aborts aborts⟩

end serving

section settled

variable {last : UdpStream} {there : Net.Host} {others : List Connection.Call} {stalled' : Bool} {waited' : Waited}
  {told : List Event}

theorem TakesIn.unique (takes : TakesIn arrivals st host calls after host')
    (again : TakesIn arrivals st host others last there) : calls = others ∧ after = last ∧ host' = there := by
  induction takes generalizing others with
  | nothing =>
    cases again
    exact ⟨rfl, rfl, rfl⟩
  | next handles _ ih =>
    cases again with
    | next handles' takes' =>
      cases handles.symm.trans handles'
      obtain ⟨rfl, same⟩ := ih takes'
      exact ⟨rfl, same⟩

theorem CatchesUp.unique (works : CatchesUp st host calls after host')
    (again : CatchesUp st host others last there) : calls = others ∧ after = last ∧ host' = there := by
  cases works with
  | works receives takes ages =>
    cases again with
    | works receives' takes' ages' =>
      cases receives.symm.trans receives'
      obtain ⟨rfl, rfl, rfl⟩ := takes.unique takes'
      cases ages.symm.trans ages'
      exact ⟨rfl, rfl, rfl⟩

theorem TakesTurn.unique (turn : TakesTurn timeout st host stalled calls after host')
    (again : TakesTurn timeout st host stalled' others last there) :
    stalled = stalled' ∧ calls = others ∧ after = last ∧ host' = there := by
  cases turn with
  | stalls waits => cases again <;> simp_all
  | works waits works =>
    cases again with
    | stalls | ages => simp_all
    | works waits' works' =>
      cases waits.symm.trans waits'
      exact ⟨rfl, works.unique works'⟩
  | ages waits ages =>
    cases again with
    | stalls | works => simp_all
    | ages waits' ages' =>
      cases waits.symm.trans waits'
      cases ages.symm.trans ages'
      exact ⟨rfl, rfl, rfl, rfl⟩

theorem WaitsOn.calls_eq (goes : WaitsOn tries st host waited calls after host')
    (again : WaitsOn tries st host waited' others last there) : calls = others := by
  induction goes generalizing others with
  | tires =>
    cases again
    rfl
  | finds => cases again <;> simp_all
  | stalls empty turn =>
    cases again with
    | finds => simp_all
    | stalls _ turn' => exact (turn.unique turn').2.1
    | turns _ turn' => cases (turn.unique turn').1
  | turns empty turn _ ih =>
    cases again with
    | finds => simp_all
    | stalls _ turn' => cases (turn.unique turn').1
    | turns _ turn' goes' =>
      obtain ⟨-, rfl, rfl, rfl⟩ := turn.unique turn'
      rw [ih goes']

theorem WaitsUntil.calls_eq (goes : WaitsUntil tries remaining st host waited calls after host')
    (again : WaitsUntil tries remaining st host waited' others last there) : calls = others := by
  induction goes generalizing others with
  | tires =>
    cases again
    rfl
  | stalls turn =>
    cases again with
    | stalls turn' => exact (turn.unique turn').2.1
    | finds turn' | lapses turn' | turns turn' => cases (turn.unique turn').1
  | finds turn next =>
    cases again with
    | stalls turn' => cases (turn.unique turn').1
    | finds turn' => exact (turn.unique turn').2.1
    | lapses turn' empty | turns turn' empty =>
      obtain ⟨-, -, rfl, -⟩ := turn.unique turn'
      cases empty.symm.trans next
  | lapses turn empty late =>
    cases again with
    | stalls turn' => cases (turn.unique turn').1
    | finds turn' | lapses turn' => exact (turn.unique turn').2.1
    | turns turn' _ early =>
      obtain ⟨-, -, -, rfl⟩ := turn.unique turn'
      exact absurd late (Nat.not_le_of_lt early)
  | turns turn empty early _ ih =>
    cases again with
    | stalls turn' => cases (turn.unique turn').1
    | finds turn' next =>
      obtain ⟨-, -, rfl, -⟩ := turn.unique turn'
      cases empty.symm.trans next
    | lapses turn' _ late =>
      obtain ⟨-, -, -, rfl⟩ := turn.unique turn'
      exact absurd late (Nat.not_le_of_lt early)
    | turns turn' _ _ goes' =>
      obtain ⟨-, rfl, rfl, rfl⟩ := turn.unique turn'
      rw [ih goes']

/-- Which calls a request comes to is settled by the stream and its host. -/
theorem Serves.calls_eq (serves : Serves st host request events calls after host')
    (again : Serves st host request told others last there) : calls = others := by
  cases serves with
  | finds next | findsFirst next => cases again <;> simp_all
  | polls empty works =>
    cases again with
    | finds => simp_all
    | polls _ works' => exact (works.unique works').1
  | pollsAll works =>
    cases again with
    | pollsAll works' => exact (works.unique works').1
  | waits goes =>
    cases again with
    | waits goes' => exact goes.calls_eq goes'
  | waitsFor empty goes =>
    cases again with
    | findsFirst => simp_all
    | waitsFor _ goes' => exact goes.calls_eq goes'
  | writes | finishes | aborts =>
    cases again
    rfl

end settled

section following

/-- What relates a stream and its host to what they become, to the events that are handed out and to the calls that
are made on the connection, whatever of all that is asked of a stream is done: what it may do itself, to wait for its
socket, and to take out of the inbox. -/
structure Follows (R : UdpStream → Net.Host → List Event → List Connection.Call → UdpStream → Net.Host → Prop) :
    Prop where
  rests (st : UdpStream) (host : Net.Host) : R st host [] [] st host
  trans {st middle after : UdpStream} {host between host' : Net.Host} {events more : List Event}
    {calls others : List Connection.Call} (first : R st host events calls middle between)
    (second : R middle between more others after host') : R st host (events ++ more) (calls ++ others) after host'
  waits {st : UdpStream} {host woken : Net.Host} {timeout : Nat} {outcome : Net.Wait}
    (h : host.wait st.socket timeout = (woken, outcome)) : R st host [] [] st woken
  takes {st : UdpStream} {host left : Net.Host} {due : List Net.Arrival}
    (h : host.receiveDue st.socket = (due, left)) : R st host [] [] st left
  arrives {st after : UdpStream} {host host' : Net.Host} {arrival : Net.Arrival}
    (h : st.handleArrival host arrival = .ok (after, host')) : R st host [] (st.callsOfArrival arrival) after host'
  ages {st after : UdpStream} {host host' : Net.Host} (h : st.passTime host = .ok (after, host')) :
    R st host [] (st.callsOfTime host.clock) after host'
  hands {st : UdpStream} {host : Net.Host} {event : Event} {rest : List Event} (next : st.events = event :: rest) :
    R st host [event] [] { st with events := rest } host
  writes {st after : UdpStream} {host host' : Net.Host} {bytes : Bytes} {count : Nat}
    (h : st.write host bytes = .ok (count, after, host')) : R st host [] (st.callsOf (.write bytes)) after host'
  finishes {st after : UdpStream} {host host' : Net.Host} (h : st.finish host = .ok (after, host')) :
    R st host [] (st.callsOf .finish) after host'
  aborts {st after : UdpStream} {host host' : Net.Host} (h : st.abort host = .ok (after, host')) :
    R st host [] (st.callsOf .abort) after host'

variable {R : UdpStream → Net.Host → List Event → List Connection.Call → UdpStream → Net.Host → Prop}
  (follows : Follows R)
include follows

theorem Follows.takesIn (takes : TakesIn arrivals st host calls after host') : R st host [] calls after host' := by
  induction takes with
  | nothing => exact follows.rests _ _
  | next handles _ ih => exact follows.trans (follows.arrives handles) ih

theorem Follows.catchesUp (works : CatchesUp st host calls after host') : R st host [] calls after host' := by
  cases works with
  | works receives takes ages =>
    exact follows.trans (follows.trans (follows.takes receives) (follows.takesIn takes)) (follows.ages ages)

theorem Follows.takesTurn (turn : TakesTurn timeout st host stalled calls after host') : R st host [] calls after host' := by
  cases turn with
  | stalls waits => exact follows.waits waits
  | works waits works => exact follows.trans (follows.waits waits) (follows.catchesUp works)
  | ages waits ages => exact follows.trans (follows.waits waits) (follows.ages ages)

theorem Follows.nextEvent (st : UdpStream) (host : Net.Host) :
    R st host st.nextEvent.1.toList [] st.nextEvent.2 host := by
  cases next : st.events with
  | nil =>
    rw [nextEvent_of_nil next]
    exact follows.rests st host
  | cons event rest =>
    rw [nextEvent_of_cons next]
    exact follows.hands next

theorem Follows.waitsOn (goes : WaitsOn tries st host waited calls after host') :
    R st host waited.told calls after host' := by
  induction goes with
  | tires => exact follows.rests _ _
  | finds next => exact follows.hands next
  | stalls _ turn => exact follows.takesTurn turn
  | turns _ turn _ ih => exact follows.trans (follows.takesTurn turn) ih

theorem Follows.waitsUntil (goes : WaitsUntil tries remaining st host waited calls after host') :
    R st host waited.told calls after host' := by
  induction goes with
  | tires => exact follows.rests _ _
  | stalls turn | lapses turn => exact follows.takesTurn turn
  | finds turn next =>
    have found := follows.trans (follows.takesTurn turn) (follows.hands next)
    rwa [List.append_nil] at found
  | turns turn _ _ _ ih => exact follows.trans (follows.takesTurn turn) ih

theorem Follows.handsAll (waiting : st.events = events) : R st host events [] { st with events := [] } host := by
  induction events generalizing st with
  | nil =>
    have same : { st with events := [] } = st := by rw [← waiting]
    rw [same]
    exact follows.rests st host
  | cons event rest ih => exact follows.trans (follows.hands waiting) (ih rfl)

theorem Follows.serves (serves : Serves st host request events calls after host') :
    R st host events calls after host' := by
  cases serves with
  | finds next | findsFirst next => exact follows.hands next
  | polls _ works =>
    have polled := follows.trans (follows.catchesUp works) (follows.nextEvent _ _)
    rwa [List.append_nil] at polled
  | @pollsAll _ worked _ works =>
    have handed : R worked host' worked.events [] { worked with events := [] } host' := follows.handsAll rfl
    have polled := follows.trans (follows.trans (follows.handsAll rfl) (follows.catchesUp works)) handed
    rwa [List.append_nil, List.append_nil] at polled
  | waits goes => exact follows.waitsOn goes
  | waitsFor _ goes => exact follows.waitsUntil goes
  | writes h => exact follows.writes h
  | finishes h => exact follows.finishes h
  | aborts h => exact follows.aborts h

end following

theorem follows_leads : Follows fun st host events _ after host' => Leads st host events after host' where
  rests st _ := Leads.rests st (Nat.le_refl _)
  trans := Leads.trans
  waits h := Leads.rests _ (Net.Host.clock_le_of_wait h)
  takes h := by
    obtain ⟨_, -, receives⟩ := Net.Host.receiveDue_receives h
    exact Leads.rests _ (Nat.le_of_eq receives.clock_eq.symm)
  arrives h := (Acts.arrives h).leads (handleArrival_effect h).clock_eq
  ages h := (Acts.ages h).leads (passTime_effect h).clock_eq
  hands next := (Acts.hands next).leads rfl
  writes h := (Acts.writes h).leads (write_effect h).clock_eq
  finishes h := (Acts.finishes h).leads (finish_effect h).clock_eq
  aborts h := (Acts.aborts h).leads (abort_effect h).clock_eq

theorem ask_leads (h : st.ask host request = .ok (events, after, host')) : Leads st host events after host' := by
  obtain ⟨_, serves⟩ := ask_serves h
  exact follows_leads.serves serves

theorem Ran.ask (ran : Ran handed gained st)
    (h : st.ask host request = .ok (events, after, host')) :
    ∃ more, Ran (handed ++ events) (gained ++ more) after := by
  obtain ⟨moments, goes, rfl⟩ := ask_leads h
  exact ran.goes goes

end TcpStack.UdpStream

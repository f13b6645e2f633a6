import TcpStack.Proofs.UdpStream.Returns

/-! Waiting for an event, but no longer than so long. A stream waits for its socket a poll interval at most, works,
and waits again for the time that is left, and it may be woken any number of times by datagrams that give no event.
Each turn uses up some of the time or takes a datagram out of the inbox, so there is a last one; and after each
turn nothing lies in the inbox that is due by then. -/

namespace TcpStack

namespace Net.Host

variable {host after : Host} {number timeout : Nat} {taken : List Arrival} {posted : List Datagram}

/-- Unless receiving or waiting is made to fail, what comes next is not due yet. -/
def Abreast (host : Host) (number : Nat) : Prop :=
  host.failing.receive = false → host.failing.wait = false →
    ∀ arrival ∈ (host.inbox number).head?, host.clock < arrival.due

theorem Keeps.abreast (keeps : host.Keeps posted after) (abreast : host.Abreast number) : after.Abreast number := by
  unfold Abreast
  rw [keeps.failing_eq, keeps.inbox_eq, keeps.clock_eq]
  exact abreast

theorem Receives.abreast (receives : Receives host number taken after) : after.Abreast number := by
  intro works _
  have later := receives.later
  rw [receives.left_eq] at works ⊢
  exact later works

theorem Receives.ne_nil (receives : Receives host number taken after) (works : host.failing.receive = false)
    {arrival : Arrival} (next : (host.inbox number).head? = some arrival) (due : arrival.due ≤ host.clock) :
    taken ≠ [] := by
  rintro rfl
  have same : host.inbox number = after.inbox number := receives.inbox_eq
  exact absurd due (Nat.not_le_of_lt (receives.later works arrival (same ▸ next)))

end Net.Host

namespace UdpStream

open Outcome

/-- The stream takes in these datagrams, in this order, while it waits for its socket and lets the time pass. -/
inductive Attends (st : UdpStream) (host : Net.Host) : (taken : List Net.Arrival) → UdpStream → Net.Host → Prop
  | rests : Attends st host [] st host
  | wakes {taken : List Net.Arrival} {middle : UdpStream} {between woken : Net.Host} {timeout : Nat}
      {outcome : Net.Wait} (attends : Attends st host taken middle between)
      (waits : between.wait middle.socket timeout = (woken, outcome)) : Attends st host taken middle woken
  | takes {taken due : List Net.Arrival} {middle after : UdpStream} {between left host' : Net.Host}
      (attends : Attends st host taken middle between) (receives : between.receiveDue middle.socket = (due, left))
      (handles : middle.handleAll left due = .ok (after, host')) : Attends st host (taken ++ due) after host'
  | ages {taken : List Net.Arrival} {middle after : UdpStream} {between host' : Net.Host}
      (attends : Attends st host taken middle between) (ages : middle.passTime between = .ok (after, host')) :
      Attends st host taken after host'

/-- What becomes of a stream and its host while it watches its socket, up to this time: the first datagrams of the
inbox are taken in, those that were due. -/
structure Watches (st : UdpStream) (host : Net.Host) (deadline : Nat) (taken : List Net.Arrival) (after : UdpStream)
    (host' : Net.Host) : Prop where
  attends : Attends st host (taken.map Net.Host.cut) after host'
  bears : Bears (Net.Host.weight taken) st host.clock after host'.clock
  inbox_eq : host.inbox st.socket = taken ++ host'.inbox st.socket
  due : ∀ arrival ∈ taken, arrival.due ≤ host'.clock
  clock_le : host.clock ≤ host'.clock
  le_clock : host'.clock ≤ deadline
  failing_eq : host'.failing = host.failing
  limit_eq : host'.limit = host.limit

variable {st middle after : UdpStream} {host between host' : Net.Host} {deadline timeout remaining tries : Nat}
  {taken more : List Net.Arrival} {stalled : Bool} {waited : Waited} {event : Event} {rest : List Event}

theorem Attends.trans (first : Attends st host taken middle between)
    (second : Attends middle between more after host') : Attends st host (taken ++ more) after host' := by
  induction second with
  | rests => rwa [List.append_nil]
  | wakes _ waits ih => exact ih.wakes waits
  | takes _ receives handles ih =>
    rw [← List.append_assoc]
    exact ih.takes receives handles
  | ages _ ages ih => exact ih.ages ages

theorem Watches.trans (first : Watches st host deadline taken middle between)
    (second : Watches middle between deadline more after host') :
    Watches st host deadline (taken ++ more) after host' where
  attends := by
    rw [List.map_append]
    exact first.attends.trans second.attends
  bears := by
    rw [Net.Host.weight_append]
    exact first.bears.trans second.bears
  inbox_eq := by
    have behind := second.inbox_eq
    rw [first.bears.remains.socket] at behind
    rw [first.inbox_eq, behind, List.append_assoc]
  due := List.forall_mem_append.mpr
    ⟨fun arrival member => Nat.le_trans (first.due arrival member) second.clock_le, second.due⟩
  clock_le := Nat.le_trans first.clock_le second.clock_le
  le_clock := second.le_clock
  failing_eq := second.failing_eq.trans first.failing_eq
  limit_eq := second.limit_eq.trans first.limit_eq

section turns

theorem watches_of_wait {woken : Net.Host} {outcome : Net.Wait} (h : host.wait st.socket timeout = (woken, outcome))
    (later : host.clock + timeout ≤ deadline) : Watches st host deadline [] st woken := by
  have clock_le := Net.Host.clock_le_of_wait h
  have le_clock := Net.Host.wait_le_clock h
  have attends : Attends st host [] st woken := Attends.rests.wakes h
  have same := (Net.Host.wait_wakes h).eq
  exact ⟨attends, .waits st clock_le, by rw [same]; rfl, List.forall_mem_nil _, clock_le,
    Nat.le_trans le_clock later, by rw [same], by rw [same]⟩

theorem watches_of_passTime (h : st.passTime host = .ok (after, host')) (later : host.clock ≤ deadline) :
    Watches st host deadline [] after host' := by
  obtain ⟨_, keeps⟩ := (passTime_effect h).keeps
  have clock_eq := keeps.clock_eq
  exact ⟨Attends.rests.ages h, passTime_bears h, (keeps.inbox_eq _).symm, List.forall_mem_nil _,
    Nat.le_of_eq clock_eq.symm, clock_eq ▸ later, keeps.failing_eq, keeps.limit_eq⟩

theorem watches_of_receiveDue (h : st.receiveDue host = .ok (after, host')) (later : host.clock ≤ deadline) :
    ∃ taken left, Net.Host.Receives host st.socket taken left ∧ Watches st host deadline taken after host' ∧
      host'.Abreast st.socket := by
  rw [receiveDue_eq] at h
  generalize received : host.receiveDue st.socket = due at h
  obtain ⟨due, left⟩ := due
  obtain ⟨taken, rfl, receives⟩ := Net.Host.receiveDue_receives received
  obtain ⟨bears, _, keeps⟩ := handleAll_keeps h
  have left_eq := receives.left_eq
  have clock_eq : host'.clock = host.clock := by rw [keeps.clock_eq, left_eq]
  have attends : Attends st host (taken.map Net.Host.cut) after host' := Attends.rests.takes received h
  rw [receives.clock_eq] at bears
  refine ⟨taken, left, receives, ⟨attends, bears.mono (Net.Host.weight_cut_le taken), ?_, ?_,
    Nat.le_of_eq clock_eq.symm, clock_eq ▸ later, ?_, ?_⟩, keeps.abreast receives.abreast⟩
  · rw [keeps.inbox_eq, receives.inbox_eq]
  · rw [clock_eq]
    exact receives.due
  · rw [keeps.failing_eq, left_eq]
  · rw [keeps.limit_eq, left_eq]

theorem waitAndWork_watches (h : st.waitAndWork host timeout = .ok (stalled, after, host'))
    (soon : host.clock + timeout ≤ deadline) (fits : deadline ≤ host.limit) : stalled = false ∧ ∃ taken,
      Watches st host deadline taken after host' ∧ host'.Abreast st.socket ∧
        (0 < timeout → taken = [] → host.clock < host'.clock) := by
  unfold waitAndWork at h
  generalize waits : host.wait st.socket timeout = woken at h
  obtain ⟨woken, outcome⟩ := woken
  have waited := watches_of_wait waits soon
  cases Net.Host.wait_wakes waits with
  | stalled late => exact absurd (Nat.le_trans soon fits) (Nat.not_le_of_lt late)
  | quiet none =>
    simp only [bind_eq_ok, pure_eq_ok] at h
    obtain ⟨⟨aged, _⟩, ages, h⟩ := h
    cases h
    obtain ⟨_, keeps⟩ := (passTime_effect ages).keeps
    refine ⟨rfl, [], waited.trans (watches_of_passTime ages waited.le_clock), keeps.abreast ?_, fun positive _ => ?_⟩
    · exact fun receives waits => Net.Host.lt_due_of_nextWithin none receives waits
    · rw [keeps.clock_eq]
      exact Nat.lt_add_of_pos_right positive
  | @readable arrival next =>
    obtain ⟨works, -, first, -⟩ := Net.Host.nextWithin_eq_some_iff.mp next
    simp only [work, bind_eq_ok, pure_eq_ok] at h
    obtain ⟨⟨aged, _⟩, ⟨⟨received, emptied⟩, receives, ages⟩, h⟩ := h
    cases h
    obtain ⟨taken, _, receives, watches, abreast⟩ := watches_of_receiveDue receives waited.le_clock
    obtain ⟨_, keeps⟩ := (passTime_effect ages).keeps
    have whole := (waited.trans watches).trans (watches_of_passTime ages watches.le_clock)
    rw [List.nil_append, List.append_nil] at whole
    refine ⟨rfl, taken, whole, keeps.abreast abreast, fun _ none => ?_⟩
    exact absurd none (receives.ne_nil works first (Nat.le_max_right _ _))

end turns

section rounds

/-- How the loop of a wait goes on with so much time left, turn by turn, and what it comes to. Nobody counts the
turns. -/
inductive Rounds : (remaining : Nat) → UdpStream → Net.Host → Except Fault (Waited × UdpStream × Net.Host) → Prop
  | faults {remaining : Nat} {st : UdpStream} {host : Net.Host} {fault : Fault}
      (works : st.waitAndWork host (min remaining st.pollMicros) = .error fault) :
      Rounds remaining st host (.error fault)
  | stalls {remaining : Nat} {st after : UdpStream} {host host' : Net.Host}
      (works : st.waitAndWork host (min remaining st.pollMicros) = .ok (true, after, host')) :
      Rounds remaining st host (.ok (.stalled, after, host'))
  | finds {remaining : Nat} {st worked : UdpStream} {host host' : Net.Host} {event : Event} {rest : List Event}
      (works : st.waitAndWork host (min remaining st.pollMicros) = .ok (false, worked, host'))
      (next : worked.events = event :: rest) :
      Rounds remaining st host (.ok (.event event, { worked with events := rest }, host'))
  | lapses {remaining : Nat} {st worked : UdpStream} {host host' : Net.Host}
      (works : st.waitAndWork host (min remaining st.pollMicros) = .ok (false, worked, host'))
      (empty : worked.events = []) (late : remaining ≤ host'.clock - host.clock) :
      Rounds remaining st host (.ok (.timedOut, worked, host'))
  | turns {remaining : Nat} {st worked : UdpStream} {host between : Net.Host}
      {outcome : Except Fault (Waited × UdpStream × Net.Host)}
      (works : st.waitAndWork host (min remaining st.pollMicros) = .ok (false, worked, between))
      (empty : worked.events = []) (left : between.clock - host.clock < remaining)
      (rounds : Rounds (remaining - (between.clock - host.clock)) worked between outcome) :
      Rounds remaining st host outcome

theorem turn_le (st : UdpStream) (whole : host.clock + remaining = deadline) :
    host.clock + min remaining st.pollMicros ≤ deadline :=
  whole ▸ Nat.add_le_add_left (Nat.min_le_left _ _) _

theorem Watches.less (watches : Watches st host deadline taken after host')
    (moves : taken = [] → host.clock < host'.clock) (left : host'.clock - host.clock < remaining) :
    remaining - (host'.clock - host.clock) + (host'.inbox after.socket).length <
      remaining + (host.inbox st.socket).length := by
  have inbox_eq := congrArg List.length watches.inbox_eq
  rw [List.length_append] at inbox_eq
  rw [watches.bears.remains.socket]
  cases taken with
  | nil =>
    have moved := moves rfl
    omega
  | cons arrival rest =>
    rw [List.length_cons] at inbox_eq
    omega

end rounds

section results

def Waited.of : Option Event → Waited
  | some event => .event event
  | none => .timedOut

theorem Rounds.watches (rounds : Rounds remaining st host (.ok (waited, after, host')))
    (whole : host.clock + remaining = deadline) (fits : deadline ≤ host.limit) : ∃ taken worked,
      Watches st host deadline taken worked host' ∧ host'.Abreast st.socket ∧
        waited = .of worked.nextEvent.1 ∧ after = worked.nextEvent.2 ∧
        (waited = .timedOut → host'.clock = deadline) := by
  generalize result : Except.ok (waited, after, host') = outcome at rounds
  induction rounds with
  | faults => cases result
  | stalls works => cases (waitAndWork_watches works (turn_le _ whole) fits).1
  | finds works next =>
    cases result
    obtain ⟨-, taken, watches, abreast, -⟩ := waitAndWork_watches works (turn_le _ whole) fits
    exact ⟨taken, _, watches, abreast, by rw [nextEvent_of_cons next]; rfl, by rw [nextEvent_of_cons next], nofun⟩
  | lapses works empty late =>
    cases result
    obtain ⟨-, taken, watches, abreast, -⟩ := waitAndWork_watches works (turn_le _ whole) fits
    have clock_le := watches.clock_le
    have le_clock := watches.le_clock
    exact ⟨taken, _, watches, abreast, by rw [nextEvent_of_nil empty]; rfl, by rw [nextEvent_of_nil empty],
      fun _ => by omega⟩
  | turns works _ left _ ih =>
    obtain ⟨-, taken, watches, -, -⟩ := waitAndWork_watches works (turn_le _ whole) fits
    have clock_le := watches.clock_le
    obtain ⟨more, last, watches', abreast, told⟩ := ih (by omega) (watches.limit_eq ▸ fits) result
    rw [watches.bears.remains.socket] at abreast
    exact ⟨taken ++ more, last, watches.trans watches', abreast, told⟩

theorem Watches.taken_eq (watches : Watches st host deadline taken after host') (abreast : host'.Abreast st.socket)
    (inOrder : Net.Host.InOrder (host.inbox st.socket)) (receives : host.failing.receive = false)
    (waits : host.failing.wait = false) :
    taken = (host.inbox st.socket).filter fun arrival => arrival.due ≤ host'.clock := by
  have inbox_eq := watches.inbox_eq
  rw [inbox_eq] at inOrder ⊢
  have behind : Net.Host.InOrder (host'.inbox st.socket) := (List.pairwise_append.mp inOrder).2.1
  rw [← watches.failing_eq] at receives waits
  have later := behind.lt_due (abreast receives waits)
  have first : taken.filter (fun arrival => arrival.due ≤ host'.clock) = taken :=
    List.filter_eq_self.mpr fun arrival member => decide_eq_true (watches.due arrival member)
  have second : (host'.inbox st.socket).filter (fun arrival => arrival.due ≤ host'.clock) = [] :=
    List.filter_eq_nil_iff.mpr fun arrival member => by simpa using later arrival member
  rw [List.filter_append, first, second, List.append_nil]

end results

section returns

/-- Up to this time no counter of the stream can overflow, whatever of the inbox it takes in. -/
structure Able (st : UdpStream) (host : Net.Host) (deadline : Nat) : Prop where
  sound : Sound st
  lag : st.lastTick ≤ st.epoch.millis host.clock
  fits : st.config.connection.capacity < Cells.limit
  ends : timeWaitFactor * st.config.connection.timeout < Count.bound
  soon : st.epoch.millis deadline < Count.bound
  short : st.bulk + Net.Host.weight (host.inbox st.socket) < 2 ^ 62

theorem Able.watches (able : Able st host deadline) (watches : Watches st host deadline taken after host') :
    Able after host' deadline := by
  obtain ⟨⟨config, epoch, -, socket, -⟩, sound, lag, bulk_le⟩ := watches.bears
  have bulk_le := bulk_le able.sound
  have short := able.short
  rw [watches.inbox_eq, Net.Host.weight_append] at short
  exact ⟨sound able.sound, lag able.lag, config ▸ able.fits, config ▸ able.ends, epoch ▸ able.soon,
    by rw [socket]; omega⟩

theorem Able.passTime (able : Able st host deadline) (later : host.clock ≤ deadline) :
    ∃ after host', st.passTime host = .ok (after, host') := by
  have soon := Nat.lt_of_le_of_lt (Epoch.millis_mono st.epoch later) able.soon
  obtain ⟨⟨after, host'⟩, ages⟩ :=
    passTime_returns able.sound able.lag soon able.ends (Nat.lt_of_le_of_lt (Nat.le_add_right _ _) able.short)
  exact ⟨after, host', ages⟩

theorem Able.receiveDue (able : Able st host deadline) : ∃ after host', st.receiveDue host = .ok (after, host') := by
  rw [receiveDue_eq]
  generalize received : host.receiveDue st.socket = due
  obtain ⟨due, left⟩ := due
  obtain ⟨taken, rfl, receives⟩ := Net.Host.receiveDue_receives received
  have short := able.short
  have weight_le := Net.Host.weight_cut_le taken
  rw [receives.inbox_eq, Net.Host.weight_append] at short
  have light : st.bulk + Net.Host.weight (taken.map Net.Host.cut) < 2 ^ 62 := by omega
  exact handleAll_returns able.sound able.fits light left

theorem Able.waitAndWork (able : Able st host deadline) (soon : host.clock + timeout ≤ deadline) :
    ∃ stalled after host', st.waitAndWork host timeout = .ok (stalled, after, host') := by
  unfold UdpStream.waitAndWork
  generalize waits : host.wait st.socket timeout = woken
  obtain ⟨woken, outcome⟩ := woken
  have waited := watches_of_wait waits soon
  have able := able.watches waited
  cases outcome with
  | stalled => exact ⟨_, _, _, rfl⟩
  | quiet =>
    obtain ⟨after, host', ages⟩ := able.passTime waited.le_clock
    simp only [ages, ok_bind]
    exact ⟨_, _, _, rfl⟩
  | readable =>
    obtain ⟨received, between, receives⟩ := able.receiveDue
    obtain ⟨_, _, -, watches, -⟩ := watches_of_receiveDue receives waited.le_clock
    obtain ⟨after, host', ages⟩ := (able.watches watches).passTime watches.le_clock
    simp only [work, receives, ages, ok_bind]
    exact ⟨_, _, _, rfl⟩

theorem Rounds.returns {outcome : Except Fault (Waited × UdpStream × Net.Host)}
    (rounds : Rounds remaining st host outcome) (able : Able st host deadline)
    (whole : host.clock + remaining = deadline) (fits : deadline ≤ host.limit) :
    ∃ waited after host', outcome = .ok (waited, after, host') := by
  induction rounds with
  | faults works =>
    obtain ⟨_, _, _, result⟩ := able.waitAndWork (turn_le _ whole)
    cases works.symm.trans result
  | stalls | finds | lapses => exact ⟨_, _, _, rfl⟩
  | turns works _ left _ ih =>
    obtain ⟨-, taken, watches, -⟩ := waitAndWork_watches works (turn_le _ whole) fits
    have clock_le := watches.clock_le
    exact ih (able.watches watches) (by omega) (watches.limit_eq ▸ fits)

end returns

end UdpStream
end TcpStack

import TcpStack.Proofs.Connection.Inflow
import TcpStack.Proofs.Net.Arrivals
import TcpStack.Proofs.UdpStream.Effect

/-! The runs of a stream over datagrams. All that is asked of a stream comes down to six kinds of steps, with a
host that may be in any state each time: whatever may lie in the inbox, whatever the clock may show, and
whatever may fail. Beside the stream stand the events that were handed out, and the bytes that arrivals have
put into the inbound stream of its connection. -/

namespace TcpStack.UdpStream

open Outcome

def gains (st : UdpStream) (host : Net.Host) (arrival : Net.Arrival) : Bytes :=
  match Segment.ofFrame? arrival.bytes with
  | none => []
  | some segment =>
    if st.peer.any (· ≠ arrival.source) then []
    else
      match st.connection with
      | some c => c.gains segment
      | none =>
        if !segment.syn || segment.ack || segment.rst then []
        else
          match st.newConnection arrival.source host.clock with
          | .ok c => c.gains segment
          | .error _ => []

inductive Ran : (handed : List Event) → (gained : Bytes) → UdpStream → Prop
  | listens {config : StreamConfig} {address : Net.Address} {host host' : Net.Host} {st : UdpStream}
      (binds : bindAt config address host = .ok (st, host')) : Ran [] [] st
  | connects {config : StreamConfig} {peer : Net.Address} {host host' last : Net.Host}
      {bound st : UdpStream} (binds : bindAt config ⟨peer.ip.unspecified, 0⟩ host = .ok (bound, host'))
      (opens : bound.opening peer host' = .ok (st, last)) : Ran [] [] st
  | arrives {handed : List Event} {gained : Bytes} {st after : UdpStream} {host host' : Net.Host}
      {arrival : Net.Arrival} (before : Ran handed gained st)
      (h : st.handleArrival host arrival = .ok (after, host')) :
      Ran handed (gained ++ st.gains host arrival) after
  | ages {handed : List Event} {gained : Bytes} {st after : UdpStream} {host host' : Net.Host}
      (before : Ran handed gained st) (h : st.passTime host = .ok (after, host')) :
      Ran handed gained after
  | hands {handed : List Event} {gained : Bytes} {st : UdpStream} {event : Event} {rest : List Event}
      (before : Ran handed gained st) (next : st.events = event :: rest) :
      Ran (handed ++ [event]) gained { st with events := rest }
  | writes {handed : List Event} {gained : Bytes} {st after : UdpStream} {host host' : Net.Host}
      {bytes : Bytes} {count : Nat} (before : Ran handed gained st)
      (h : st.write host bytes = .ok (count, after, host')) : Ran handed gained after
  | finishes {handed : List Event} {gained : Bytes} {st after : UdpStream} {host host' : Net.Host}
      (before : Ran handed gained st) (h : st.finish host = .ok (after, host')) :
      Ran handed gained after
  | aborts {handed : List Event} {gained : Bytes} {st after : UdpStream} {host host' : Net.Host}
      (before : Ran handed gained st) (h : st.abort host = .ok (after, host')) :
      Ran handed gained after

inductive Request where
  | poll
  | pollAll
  | wait
  | waitFor (timeout : Nat)
  | write (bytes : Bytes)
  | finish
  | abort
deriving DecidableEq, Repr

def Waited.told : Waited → List TcpStack.Event
  | .event told => [told]
  | .timedOut | .stalled => []

def ask (st : UdpStream) (host : Net.Host) :
    Request → Except Fault (List Event × UdpStream × Net.Host)
  | .poll => do
    let (event, st, host) ← st.poll host
    return (event.toList, st, host)
  | .pollAll => st.pollAll host
  | .wait => do
    let (waited, st, host) ← st.wait host
    return (waited.told, st, host)
  | .waitFor timeout => do
    let (waited, st, host) ← st.waitFor host timeout
    return (waited.told, st, host)
  | .write bytes => do
    let (_, st, host) ← st.write host bytes
    return ([], st, host)
  | .finish => do return ([], ← st.finish host)
  | .abort => do return ([], ← st.abort host)

variable {handed : List Event} {gained : Bytes} {st after : UdpStream} {host host' : Net.Host}

theorem listen_ran {config : StreamConfig} {names : List String}
    (h : listen config names host = .ok (st, host')) : Ran [] [] st := by
  obtain ⟨_, binds⟩ := listen_eq_ok h
  exact .listens binds

theorem connect_ran {config : StreamConfig} {names : List String}
    (h : connect config names host = .ok (.ok (st, host'))) : Ran [] [] st := by
  obtain ⟨_, _, _, binds, opens⟩ := connect_eq_ok h
  exact .connects binds opens

/-- What a stream may do at a host, and the event that it hands out if that is what it does. -/
inductive Acts (st : UdpStream) (host : Net.Host) : (told : List Event) → UdpStream → Prop
  | arrives {after : UdpStream} {host' : Net.Host} {arrival : Net.Arrival}
      (h : st.handleArrival host arrival = .ok (after, host')) : Acts st host [] after
  | ages {after : UdpStream} {host' : Net.Host} (h : st.passTime host = .ok (after, host')) :
      Acts st host [] after
  | hands {event : Event} {rest : List Event} (next : st.events = event :: rest) :
      Acts st host [event] { st with events := rest }
  | writes {after : UdpStream} {host' : Net.Host} {bytes : Bytes} {count : Nat}
      (h : st.write host bytes = .ok (count, after, host')) : Acts st host [] after
  | finishes {after : UdpStream} {host' : Net.Host} (h : st.finish host = .ok (after, host')) :
      Acts st host [] after
  | aborts {after : UdpStream} {host' : Net.Host} (h : st.abort host = .ok (after, host')) :
      Acts st host [] after

structure Moment where
  clock : Nat
  before : UdpStream
  told : List Event
  after : UdpStream

def toldIn (moments : List Moment) : List Event := moments.flatMap Moment.told

@[simp] theorem toldIn_append (moments more : List Moment) :
    toldIn (moments ++ more) = toldIn moments ++ toldIn more := List.flatMap_append

@[simp] theorem toldIn_singleton (m : Moment) : toldIn [m] = m.told := List.flatMap_singleton _ m

/-- How a stream goes on while the clock moves on. -/
inductive Goes (st : UdpStream) (clock : Nat) : (moments : List Moment) → UdpStream → (now : Nat) → Prop
  | rests : Goes st clock [] st clock
  | waits {moments : List Moment} {after : UdpStream} {before now : Nat}
      (goes : Goes st clock moments after before) (later : before ≤ now) : Goes st clock moments after now
  | acts {moments : List Moment} {middle after : UdpStream} {host : Net.Host} {told : List Event}
      (goes : Goes st clock moments middle host.clock) (acts : middle.Acts host told after) :
      Goes st clock (moments ++ [⟨host.clock, middle, told, after⟩]) after host.clock

theorem Goes.trans {moments more : List Moment} {middle : UdpStream} {clock before now : Nat}
    (first : Goes st clock moments middle before) (second : Goes middle before more after now) :
    Goes st clock (moments ++ more) after now := by
  induction second with
  | rests => rwa [List.append_nil]
  | waits _ later ih => exact ih.waits later
  | acts _ acts ih =>
    rw [← List.append_assoc]
    exact ih.acts acts

def Leads (st : UdpStream) (host : Net.Host) (events : List Event) (after : UdpStream)
    (host' : Net.Host) : Prop :=
  ∃ moments, Goes st host.clock moments after host'.clock ∧ toldIn moments = events

section leading

variable {middle : UdpStream} {between : Net.Host} {events more : List Event}

theorem Leads.rests (st : UdpStream) (later : host.clock ≤ host'.clock) : Leads st host [] st host' :=
  ⟨[], Goes.rests.waits later, rfl⟩

theorem Leads.trans (first : Leads st host events middle between)
    (second : Leads middle between more after host') : Leads st host (events ++ more) after host' := by
  obtain ⟨moments, goes, rfl⟩ := first
  obtain ⟨others, goes', rfl⟩ := second
  exact ⟨moments ++ others, goes.trans goes', toldIn_append _ _⟩

theorem Acts.leads (acts : st.Acts host events after) (clock_eq : host'.clock = host.clock) :
    Leads st host events after host' :=
  ⟨_, (Goes.rests.acts acts).waits (Nat.le_of_eq clock_eq.symm), toldIn_singleton _⟩

end leading

theorem Ran.acts {told : List Event} (ran : Ran handed gained st) (acts : st.Acts host told after) :
    ∃ more, Ran (handed ++ told) (gained ++ more) after := by
  cases acts with
  | arrives h => exact ⟨_, (List.append_nil handed).symm ▸ ran.arrives h⟩
  | hands next => exact ⟨[], (List.append_nil gained).symm ▸ ran.hands next⟩
  | ages h => exact ⟨[], (List.append_nil handed).symm ▸ (List.append_nil gained).symm ▸ ran.ages h⟩
  | writes h => exact ⟨[], (List.append_nil handed).symm ▸ (List.append_nil gained).symm ▸ ran.writes h⟩
  | finishes h =>
    exact ⟨[], (List.append_nil handed).symm ▸ (List.append_nil gained).symm ▸ ran.finishes h⟩
  | aborts h => exact ⟨[], (List.append_nil handed).symm ▸ (List.append_nil gained).symm ▸ ran.aborts h⟩

theorem Ran.goes {moments : List Moment} {clock now : Nat} (ran : Ran handed gained st)
    (goes : Goes st clock moments after now) :
    ∃ more, Ran (handed ++ toldIn moments) (gained ++ more) after := by
  induction goes with
  | rests => exact ⟨[], (List.append_nil handed).symm ▸ (List.append_nil gained).symm ▸ ran⟩
  | waits _ _ ih => exact ih
  | acts _ acts ih =>
    obtain ⟨more, reached⟩ := ih
    obtain ⟨further, reached'⟩ := reached.acts acts
    rw [toldIn_append, toldIn_singleton]
    exact ⟨more ++ further, List.append_assoc handed _ _ ▸ List.append_assoc gained _ _ ▸ reached'⟩

end TcpStack.UdpStream

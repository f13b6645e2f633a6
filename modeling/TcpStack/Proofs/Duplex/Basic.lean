import TcpStack.Exchange.Link
import TcpStack.Proofs.Connection.Reachable

/-! Two connections and a network between them. Each end keeps a record of what its application wrote and
read, and of all that left its queue. The network changes no segment, but may do with it whatever else it
likes: what has left one end may come in at the other at any later time, any number of times, in any
order, or never. -/

namespace TcpStack

structure Endpoint where
  connection : Connection
  accepted : Bytes := []
  finished : Bool := false
  read : Bytes := []
  emitted : List Segment := []

structure Duplex where
  first : Endpoint
  second : Endpoint

/-- The call is made by the application or the clock, and takes from the inbound stream at most. -/
def Connection.Call.own : Connection.Call → Bool
  | .segment _ => false
  | call => call.within ByteStream.Call.reads

namespace Endpoint

def assembled (e : Endpoint) : Bytes := e.read ++ e.connection.inbound.toList

def after (e : Endpoint) (call : Connection.Call) (connection : Connection) (reply : Reply) :
    Endpoint :=
  match call, reply with
  | .write bytes, .count accepted =>
    { e with connection, accepted := e.accepted ++ bytes.take accepted }
  | .finish, _ => { e with connection, finished := true }
  | .inbound call, _ => { e with connection, read := e.read ++ call.takes e.connection.inbound }
  | _, _ => { e with connection }

def perform (e : Endpoint) (call : Connection.Call) : Except Fault Endpoint := do
  let (connection, reply) ← (e.connection.perform call).result
  return e.after call connection reply

/-- The oldest `count` segments of the queue leave for the network. -/
def emit (e : Endpoint) (count : Nat) : Endpoint :=
  { e with
    connection := { e.connection with queued := e.connection.queued.drop count }
    emitted := e.emitted ++ e.connection.queued.take count }

/-- What may happen to an end whose peer has emitted these segments. -/
inductive Step (arriving : List Segment) (e : Endpoint) : Endpoint → Prop
  | calls {call : Connection.Call} {connection : Connection} {reply : Reply}
      (own : call.own = true) (performs : e.connection.Performs call connection reply) :
      Step arriving e (e.after call connection reply)
  | receives {segment : Segment} {connection : Connection} (sent : segment ∈ arriving)
      (parts : e.connection.Parts (some segment) connection) :
      Step arriving e { e with connection }
  | emits (count : Nat) : Step arriving e (e.emit count)

theorem Step.accepted_le {arriving : List Segment} {e e' : Endpoint} (step : Step arriving e e') :
    e.accepted.length ≤ e'.accepted.length := by
  cases step with
  | calls =>
    unfold after
    split <;> simp
  | receives | emits => exact Nat.le_refl _

end Endpoint

namespace Duplex

open Outcome

def endpoint (d : Duplex) : Side → Endpoint
  | .first => d.first
  | .second => d.second

def withEndpoint (d : Duplex) (side : Side) (e : Endpoint) : Duplex :=
  match side with
  | .first => { d with first := e }
  | .second => { d with second := e }

/-- What may happen. A delivery brings the segment of this number, of all that the other end has
emitted. -/
inductive Event where
  | call (side : Side) (call : Connection.Call)
  | emit (side : Side) (count : Nat)
  | deliver (side : Side) (number : Nat)
deriving DecidableEq, Repr

/-- Calls that are not an end's own, and deliveries of what was never sent, do not happen. -/
def act (d : Duplex) : Event → Except Fault Duplex
  | .call side call =>
    if call.own then return d.withEndpoint side (← (d.endpoint side).perform call) else return d
  | .emit side count => return d.withEndpoint side ((d.endpoint side).emit count)
  | .deliver side number =>
    match (d.endpoint side.other).emitted[number]? with
    | some segment => return d.withEndpoint side (← (d.endpoint side).perform (.segment segment))
    | none => return d

def run (d : Duplex) (events : List Event) : Except Fault Duplex := events.foldlM act d

inductive Reachable : Duplex → Prop
  | opened {config config' : Config} {isn isn' : SeqNum} {c c' : Connection}
      (first : Connection.new? config isn = .ok (.ok c))
      (second : Connection.new? config' isn' = .ok (.ok c')) :
      Reachable ⟨{ connection := c }, { connection := c' }⟩
  | acted {d after : Duplex} {event : Event} (before : Reachable d) (acts : d.act event = .ok after) :
      Reachable after

theorem Reachable.run {d after : Duplex} {events : List Event} (before : Reachable d)
    (h : d.run events = .ok after) : Reachable after :=
  foldlM_induction h before fun _ _ _ _ acts reachable => reachable.acted acts

theorem act_cases {d after : Duplex} {event : Event} (h : d.act event = .ok after) :
    after = d ∨ ∃ side e, Endpoint.Step (d.endpoint side.other).emitted (d.endpoint side) e ∧
      after = d.withEndpoint side e := by
  unfold act Endpoint.perform at h
  cases event with
  | call side call =>
    simp only at h
    split at h
    · rename_i own
      simp only [bind_eq_ok, pure_eq_ok] at h
      obtain ⟨_, ⟨⟨connection, reply⟩, performs, rfl⟩, rfl⟩ := h
      exact Or.inr ⟨side, _, .calls own (Connection.perform_performs performs), rfl⟩
    · cases h
      exact Or.inl rfl
  | emit side count =>
    cases h
    exact Or.inr ⟨side, _, .emits count, rfl⟩
  | deliver side number =>
    simp only at h
    split at h
    · rename_i segment found
      simp only [bind_eq_ok, pure_eq_ok] at h
      obtain ⟨_, ⟨⟨connection, reply⟩, performs, rfl⟩, rfl⟩ := h
      have sent := List.mem_of_getElem? found
      cases Connection.perform_performs performs with
      | receives _ handles => exact Or.inr ⟨side, _, .receives sent handles.parts, rfl⟩
    · cases h
      exact Or.inl rfl

theorem Reachable.induction {P : Endpoint → Endpoint → Prop} {d : Duplex} (reachable : d.Reachable)
    (start : ∀ (config config' : Config) (isn isn' : SeqNum), config.capacity < Cells.limit →
      config'.capacity < Cells.limit →
      P { connection := .initial config isn } { connection := .initial config' isn' })
    (here : ∀ e other e', Endpoint.Step other.emitted e e' → P e other → P other e → P e' other)
    (there : ∀ e other other', Endpoint.Step e.emitted other other' → P e other → P other e →
      P e other') (side : Side) : P (d.endpoint side) (d.endpoint side.other) := by
  have both : ∀ side, P (d.endpoint side) (d.endpoint side.other) := by
    induction reachable with
    | opened first second =>
      obtain ⟨rfl, -, fits⟩ := Connection.new?_eq_ok_iff.mp first
      obtain ⟨rfl, -, fits'⟩ := Connection.new?_eq_ok_iff.mp second
      intro side
      cases side with
      | first => exact start _ _ _ _ fits fits'
      | second => exact start _ _ _ _ fits' fits
    | @acted d after event _ acts ih =>
      rcases act_cases acts with rfl | ⟨actor, e, step, rfl⟩
      · exact ih
      have forth := ih actor
      have back := ih actor.other
      intro side
      cases actor <;> cases side
      all_goals first | exact here _ _ _ step forth back | exact there _ _ _ step back forth
  exact both side

def meeting (events : List Event) : Except Fault Duplex :=
  run ⟨{ connection := .initial { capacity := 8, isn := some ⟨4294967294⟩ } ⟨0⟩ },
    { connection := .initial { capacity := 8, isn := some ⟨5000⟩ } ⟨0⟩ }⟩ events

theorem new?_of_meeting (isn : SeqNum) : Connection.new? { capacity := 8, isn := some isn } ⟨0⟩ =
    .ok (.ok (.initial { capacity := 8, isn := some isn } ⟨0⟩)) :=
  Connection.new?_eq_ok_iff.mpr ⟨rfl, ⟨Nat.succ_pos _, Nat.succ_pos _⟩, by
    change 8 < Cells.limit
    decide⟩

theorem reachable_meeting {events : List Event} {d : Duplex} (h : meeting events = .ok d) :
    d.Reachable :=
  (Reachable.opened (new?_of_meeting _) (new?_of_meeting _)).run h

structure Sight where
  accepted : Bytes
  ended : Bool
  named : Option State
deriving DecidableEq

def sight (d : Duplex) (side : Side) : Sight :=
  ⟨(d.endpoint side).accepted, (d.endpoint side).connection.inbound.ended,
    (d.endpoint side).connection.summary.named⟩

theorem sight_of_meeting {events : List Event} {first second : Sight}
    (seen : (fun d => (sight d .first, sight d .second)) <$> meeting events =
      .ok (first, second)) :
    ∃ d : Duplex, d.Reachable ∧ sight d .first = first ∧ sight d .second = second := by
  obtain ⟨d, met, look⟩ := map_eq_ok.mp seen
  rw [Prod.mk.injEq] at look
  exact ⟨d, reachable_meeting met, look⟩

def overtaken : List Event :=
  [.call .first .connect, .emit .first 1, .deliver .second 0, .emit .second 1, .deliver .first 0,
    .emit .first 1, .call .first (.write [97, 98, 99]), .call .first .finish, .emit .first 2,
    .deliver .second 3, .deliver .second 2, .deliver .second 3, .deliver .second 2,
    .call .second (.inbound (.read 2))]

end Duplex
end TcpStack

import TcpStack.Proofs.Connection.Acknowledging
import TcpStack.Proofs.Connection.Returns

/-! The history of a connection, call by call. It holds what was asked and answered, what the connection had
become after each call, and which segments the call queued; from it follows what the application wrote,
what the peer sent, and what went out. -/

namespace TcpStack.Connection

open Outcome

structure Event where
  call : Call
  reply : Reply
  after : Connection
  queued : List Segment

def Call.accepts : Call → Reply → Bytes
  | .write bytes, .count accepted => bytes.take accepted
  | _, _ => []

def Call.payload : Call → Bytes
  | .segment incoming => incoming.payload
  | _ => []

def written (events : List Event) : Bytes := events.flatMap fun e => e.call.accepts e.reply

def received (events : List Event) : Bytes := events.flatMap fun e => e.call.payload

def sent (events : List Event) : List Segment := events.flatMap Event.queued

@[simp] theorem written_append (events more : List Event) :
    written (events ++ more) = written events ++ written more := List.flatMap_append

@[simp] theorem received_append (events more : List Event) :
    received (events ++ more) = received events ++ received more := List.flatMap_append

@[simp] theorem sent_append (events more : List Event) :
    sent (events ++ more) = sent events ++ sent more := List.flatMap_append

@[simp] theorem written_singleton (e : Event) : written [e] = e.call.accepts e.reply :=
  List.flatMap_singleton _ e

@[simp] theorem received_singleton (e : Event) : received [e] = e.call.payload :=
  List.flatMap_singleton _ e

@[simp] theorem sent_singleton (e : Event) : sent [e] = e.queued := List.flatMap_singleton _ e

def event (c : Connection) (call : Call) (after : Connection) (reply : Reply) : Event :=
  ⟨call, reply, after, after.queued.drop c.queued.length⟩

/-- The connection has come this way from its opening. What waits in its queue may leave at any time between
two calls. -/
inductive Traced (allows : ByteStream.Call → Bool) : List Event → Connection → Prop
  | opened {config : Config} {isn : SeqNum} {c : Connection}
      (opens : new? config isn = .ok (.ok c)) : Traced allows [] c
  | called {events : List Event} {c after : Connection} {call : Call} {reply : Reply}
      (before : Traced allows events c) (within : call.within allows = true)
      (performs : (c.perform call).result = .ok (after, reply)) :
      Traced allows (events ++ [c.event call after reply]) after
  | emitted {events : List Event} {c : Connection} (before : Traced allows events c) (count : Nat) :
      Traced allows events { c with queued := c.queued.drop count }

variable {allows : ByteStream.Call → Bool} {events : List Event} {c after : Connection}

theorem Traced.reachable (traced : Traced allows events c) : Reachable allows c := by
  induction traced with
  | opened opens => exact .opened opens
  | called _ within performs ih => exact ih.called within performs
  | emitted _ count ih => exact ih.emitted count

theorem Reachable.traced (reachable : Reachable allows c) : ∃ events, Traced allows events c := by
  induction reachable with
  | opened opens => exact ⟨[], .opened opens⟩
  | called _ within performs ih =>
    obtain ⟨events, traced⟩ := ih
    exact ⟨_, traced.called within performs⟩
  | emitted _ count ih =>
    obtain ⟨events, traced⟩ := ih
    exact ⟨events, traced.emitted count⟩

variable {accepted : Bytes} {ended : Bool} {isn : SeqNum} {call : Call} {reply : Reply}

theorem Speaks.performs (speaks : Speaks accepted ended isn c) (performs : Performs c call after reply) :
    ∃ ended, Speaks (accepted ++ call.accepts reply) ended isn after ∧
      after.outbound.written = c.outbound.written + (call.accepts reply).length := by
  have kept {incoming : Option Segment} {y : Connection} (parts : Parts incoming c y) :
      ∃ ended, Speaks (accepted ++ []) ended isn y ∧
        y.outbound.written = c.outbound.written + ([] : Bytes).length :=
    ⟨ended, (List.append_nil accepted).symm ▸ speaks.parts parts, speaks.written_eq parts⟩
  cases performs with
  | connects acts | aborts acts | ticks _ acts => exact kept acts.parts
  | receives _ handles => exact kept handles.parts
  | ignoresWrite | ignoresFinish => exact kept (Parts.refl none c)
  | @writes _ bytes stream count accepts replies =>
    have takes := ByteStream.write_accepts speaks.serves.sound accepts
    have length_eq : (bytes.take count).length = count := by
      rw [List.length_take, Nat.min_eq_left takes.le]
    have spoken := speaks.write accepts
    refine ⟨ended, spoken.parts replies.parts, (spoken.written_eq replies.parts).trans ?_⟩
    change stream.written = c.outbound.written + (bytes.take count).length
    rw [length_eq]
    exact takes.written_eq
  | finishes replies =>
    refine ⟨true, ?_, speaks.finish.written_eq replies.parts⟩
    exact (List.append_nil accepted).symm ▸ speaks.finish.parts replies.parts
  | @reads call output reply =>
    have nothing : (Call.inbound call).accepts reply = [] := rfl
    exact ⟨ended, by simpa [nothing] using ⟨speaks.serves, speaks.queued⟩, rfl⟩

theorem queued_event {queued : List Segment} (queued_eq : after.queued = c.queued ++ queued) :
    (c.event call after reply).queued = queued := by
  unfold event
  rw [queued_eq, List.drop_left]

theorem Traced.speaks (traced : Traced allows events c) :
    (∃ ended isn, Speaks (written events) ended isn c) ∧
      c.outbound.written = (written events).length := by
  induction traced with
  | opened opens =>
    obtain ⟨rfl, -, fits⟩ := new?_eq_ok_iff.mp opens
    exact ⟨⟨false, _, speaks_initial _ fits⟩, rfl⟩
  | called _ _ performs ih =>
    obtain ⟨⟨ended, isn, speaks⟩, counted⟩ := ih
    obtain ⟨ended', speaks', written_eq⟩ := speaks.performs (perform_performs performs)
    rw [written_append, written_singleton, List.length_append, ← counted]
    exact ⟨⟨ended', isn, speaks'⟩, written_eq⟩
  | emitted _ count ih =>
    obtain ⟨⟨ended, isn, speaks⟩, counted⟩ := ih
    exact ⟨⟨ended, isn, speaks.serves, fun segment member =>
      speaks.queued segment (List.mem_of_mem_drop member)⟩, counted⟩

def record (c : Connection) : List Call → Except Fault (List Event × Connection)
  | [] => return ([], c)
  | call :: rest => do
    let (after, reply) ← (c.perform call).result
    let (events, last) ← record after rest
    return (c.event call after reply :: events, last)

theorem Traced.record {calls : List Call} {more : List Event} (before : Traced allows events c)
    (within : ∀ call ∈ calls, call.within allows = true) (h : c.record calls = .ok (more, after)) :
    Traced allows (events ++ more) after := by
  induction calls generalizing c events more with
  | nil =>
    cases h
    rwa [List.append_nil]
  | cons call rest ih =>
    unfold Connection.record at h
    simp only [bind_eq_ok, pure_eq_ok] at h
    obtain ⟨⟨middle, reply⟩, performs, ⟨later, last⟩, hrest, h⟩ := h
    cases h
    have first := before.called (within call (by simp)) performs
    have whole := ih first (fun call' inside => within call' (by simp [inside])) hrest
    rwa [List.append_assoc, List.singleton_append] at whole

def logOfDial (capacity : Nat) (calls : List Call) : Except Fault (List Event × Connection) :=
  record (initial { capacity, isn := some ⟨1000⟩ } ⟨1000⟩) ([.connect, .segment
    { syn := true, ack := true, seqno := ⟨5000⟩, ackno := ⟨1001⟩, window := 100 }] ++ calls)

theorem traced_logOfDial {capacity : Nat} {calls : List Call} (positive : 0 < capacity)
    (fits : capacity < Cells.limit) (within : ∀ call ∈ calls, call.within allows = true)
    (h : logOfDial capacity calls = .ok (events, c)) : Traced allows events c := by
  have opens : new? { capacity, isn := some ⟨1000⟩ } ⟨1000⟩ =
      .ok (.ok (initial { capacity, isn := some ⟨1000⟩ } ⟨1000⟩)) :=
    new?_eq_ok_iff.mpr ⟨rfl, ⟨positive, Nat.succ_pos _⟩, fits⟩
  refine (Traced.opened opens).record (fun call member => ?_) h
  rcases List.mem_append.mp member with first | rest
  · rcases List.mem_cons.mp first with rfl | second
    · rfl
    · exact List.mem_singleton.mp second ▸ rfl
  · exact within call rest

end TcpStack.Connection

import TcpStack.Proofs.Connection.Handling
import TcpStack.Proofs.Sender.Cursor

/-! Connections that can come about: opened with a configuration that is not refused, then called in any
order with anything, with segments of any kind among it. Of what is done to the inbound stream by hand
only the kinds that `allows` names are counted in. -/

namespace TcpStack.Connection

open Outcome

def Call.within (allows : ByteStream.Call → Bool) : Call → Bool
  | .inbound call => allows call
  | _ => true

inductive Reachable (allows : ByteStream.Call → Bool) : Connection → Prop
  | opened {config : Config} {isn : SeqNum} {c : Connection}
      (opens : new? config isn = .ok (.ok c)) : Reachable allows c
  | called {c after : Connection} {call : Call} {reply : Reply} (before : Reachable allows c)
      (within : call.within allows = true) (performs : (c.perform call).result = .ok (after, reply)) :
      Reachable allows after
  | emitted {c : Connection} (before : Reachable allows c) (count : Nat) :
      Reachable allows { c with queued := c.queued.drop count }

theorem new?_eq_ok_iff {config : Config} {isn : SeqNum} {c : Connection} :
    new? config isn = .ok (.ok c) ↔ c = initial config isn ∧
      (0 < config.capacity ∧ 0 < config.timeout) ∧ config.capacity < Cells.limit := by
  unfold new?
  simp only [bind_eq_ok, pure_eq_ok]
  constructor
  · rintro ⟨_, valid, created⟩
    obtain ⟨rfl, fits⟩ := create_eq_ok_iff.mp created
    exact ⟨rfl, Config.validate_eq_ok_iff.mp valid, fits⟩
  · rintro ⟨rfl, valid, fits⟩
    exact ⟨(), Config.validate_eq_ok_iff.mpr valid, create_eq_ok_iff.mpr ⟨rfl, fits⟩⟩

def performAll (c : Connection) (calls : List Call) : Except Fault Connection :=
  calls.foldlM (fun c call => Prod.fst <$> (c.perform call).result) c

theorem Reachable.performAll {allows : ByteStream.Call → Bool} {c after : Connection}
    {calls : List Call} (before : Reachable allows c)
    (within : ∀ call ∈ calls, call.within allows = true) (h : c.performAll calls = .ok after) :
    Reachable allows after := by
  refine foldlM_induction h before fun call member c after step reachable => ?_
  simp only [map_eq_ok] at step
  obtain ⟨⟨_, reply⟩, performs, rfl⟩ := step
  exact reachable.called (within call member) performs

/-- A connection whose streams hold together, and which ended if one of them failed. -/
structure Intact (c : Connection) : Prop where
  inbound : c.inbound.Sound
  outbound : c.outbound.Sound
  cells : c.inbound.capacity = c.receiver.reassembler.capacity
  alive : c.active = true → c.inbound.failed = false ∧ c.outbound.failed = false

theorem intact_initial {config : Config} {isn : SeqNum} (fits : config.capacity < Cells.limit) :
    Intact (initial config isn) :=
  ⟨ByteStream.sound_ofCapacity fits, ByteStream.sound_ofCapacity fits, rfl, fun _ => ⟨rfl, rfl⟩⟩

variable {incoming : Option Segment} {c after : Connection}

theorem Intact.part (intact : Intact c) (part : Part incoming c after) : Intact after := by
  cases part with
  | sends step =>
    obtain ⟨sound, failed_eq⟩ := step.stream_sound intact.outbound
    exact ⟨intact.inbound, sound, intact.cells, fun active =>
      ⟨(intact.alive active).1, failed_eq.trans (intact.alive active).2⟩⟩
  | takes _ takes =>
    obtain ⟨_, goes, -⟩ := takes.spec intact.inbound
    refine ⟨goes.sound, intact.outbound, ?_, fun active =>
      ⟨goes.failed_eq.trans (intact.alive active).1, (intact.alive active).2⟩⟩
    exact (goes.cells_eq.trans intact.cells).trans goes.capacity_eq.symm
  | flushes | replaces => exact ⟨intact.inbound, intact.outbound, intact.cells, intact.alive⟩
  | kills cause =>
    refine ⟨intact.inbound.fail, intact.outbound.fail, intact.cells, fun active => ?_⟩
    cases active
  | ages => exact ⟨intact.inbound, intact.outbound, intact.cells, intact.alive⟩
  | checks =>
    exact ⟨intact.inbound, intact.outbound, intact.cells, fun active =>
      intact.alive (Bool.and_eq_true_iff.mp active).1⟩
  | expires =>
    refine ⟨intact.inbound, intact.outbound, intact.cells, fun active => ?_⟩
    cases active

theorem Intact.parts (intact : Intact c) (parts : Parts incoming c after) : Intact after :=
  parts.induction intact fun _ _ part intact => intact.part part

theorem Intact.outbound_write (intact : Intact c) {bytes : Bytes} {stream : ByteStream}
    {count : Nat} (h : c.sender.stream.write bytes = .ok (stream, count)) :
    Intact { c with sender := { c.sender with stream } } := by
  have accepts := ByteStream.write_accepts intact.outbound h
  exact ⟨intact.inbound, accepts.sound, intact.cells, fun active =>
    ⟨(intact.alive active).1, accepts.failed_eq.trans (intact.alive active).2⟩⟩

theorem Intact.outbound_finish (intact : Intact c) :
    Intact { c with sender := { c.sender with stream := c.sender.stream.finish } } :=
  ⟨intact.inbound, intact.outbound.finish, intact.cells, intact.alive⟩

theorem Intact.perform (intact : Intact c) {call : Call} {reply : Reply}
    (within : call.within ByteStream.Call.spares = true) (performs : Performs c call after reply) :
    Intact after := by
  cases performs with
  | connects acts | aborts acts | ticks _ acts => exact intact.parts acts.parts
  | receives _ handles => exact intact.parts handles.parts
  | ignoresWrite | ignoresFinish => exact intact
  | writes accepts replies => exact (intact.outbound_write accepts).parts replies.parts
  | finishes replies => exact intact.outbound_finish.parts replies.parts
  | reads takes =>
    obtain ⟨sound, capacity_eq, failed_eq⟩ := ByteStream.perform_sound intact.inbound takes
    exact ⟨sound, intact.outbound, capacity_eq.trans intact.cells, fun active =>
      ⟨(failed_eq within).trans (intact.alive active).1, (intact.alive active).2⟩⟩

theorem Reachable.intact (reachable : Reachable ByteStream.Call.spares c) : Intact c := by
  induction reachable with
  | opened opens =>
    obtain ⟨rfl, -, fits⟩ := new?_eq_ok_iff.mp opens
    exact intact_initial fits
  | called _ within performs ih => exact ih.perform within (perform_performs performs)
  | emitted _ count ih => exact ⟨ih.inbound, ih.outbound, ih.cells, ih.alive⟩

def dial (capacity : Nat) (calls : List Call) : Except Fault Connection :=
  performAll (initial { capacity, isn := some ⟨1000⟩ } ⟨1000⟩) ([.connect, .segment
    { syn := true, ack := true, seqno := ⟨5000⟩, ackno := ⟨1001⟩, window := 100 }] ++ calls)

theorem reachable_dial {allows : ByteStream.Call → Bool} {capacity : Nat} {calls : List Call}
    {c : Connection} (positive : 0 < capacity) (fits : capacity < Cells.limit)
    (within : ∀ call ∈ calls, call.within allows = true) (h : dial capacity calls = .ok c) :
    Reachable allows c := by
  have opens : new? { capacity, isn := some ⟨1000⟩ } ⟨1000⟩ =
      .ok (.ok (initial { capacity, isn := some ⟨1000⟩ } ⟨1000⟩)) :=
    new?_eq_ok_iff.mpr ⟨rfl, ⟨positive, Nat.succ_pos _⟩, fits⟩
  refine (Reachable.opened opens).performAll (fun call member => ?_) h
  rcases List.mem_append.mp member with first | rest
  · rcases List.mem_cons.mp first with rfl | second
    · rfl
    · exact List.mem_singleton.mp second ▸ rfl
  · exact within call rest

end TcpStack.Connection

import TcpStack.Proofs.Connection.Pacing

/-! The line of segments that wait at a connection to go over to the peer. If they go over in order, a segment
that takes no number meets a receiver that has taken in nothing but what was sent before the segment was
queued. So it is no probe there, for its number is that of the next segment, or a later one. -/

namespace TcpStack

open Outcome

open Sender (Progress Launched)

open Segment

namespace Sender

variable {s after : Sender} {offer : Option (SeqNum × UInt16)}

theorem Step.queued_cases (step : Step offer s after) (ledger : Ledger s) :
    after.queued = s.queued ∨ ∃ segment, after.queued = s.queued ++ [segment] ∧
      (0 < segment.sequenceLength ∨ segment = { seqno := s.nextWire }) := by
  cases step with
  | hears | ages => exact Or.inl rfl
  | acks _ _ _ _ hadvance =>
    obtain ⟨_, _, _, _, _, rfl⟩ := advance_eq_ok hadvance
    exact Or.inl rfl
  | opens => exact Or.inr ⟨_, rfl, Or.inl Nat.one_pos⟩
  | cuts _ _ _ _ some => exact Or.inr ⟨_, rfl, Or.inl (sequenceLength_pos some)⟩
  | resends _ _ _ inFlight =>
    have contiguous := ledger.contiguous
    rw [inFlight] at contiguous
    exact Or.inr ⟨_, rfl, Or.inl contiguous.2.1⟩
  | replies => exact Or.inr ⟨_, rfl, Or.inr rfl⟩

end Sender

namespace Connection

/-- The segments that wait to go over, those that the sender holds behind the others. The acknowledgment
fields, which a segment gets on the way from the sender to the queue, are left out. -/
def waiting (c : Connection) : List Segment := (c.queued ++ c.sender.queued).map unstamped

/-- All that the receiver has, and all that goes over before the segment, was sent when the segment was queued
with the next number of that time. -/
structure Trails (p : Progress) (r : Receiver) (before : List Segment) (segment : Segment) : Prop where
  numbered : ∃ next, segment.seqno = SeqNum.wrap next p.isn ∧ next ≤ p.sent.length + 2 ∧
    (p.cuts 0 → p.sent.length + 1 + p.fin.toNat ≤ next)
  short : p.sent.length + 2 < SeqNum.half
  keeps : r.Keeps p
  before : ∀ ahead ∈ before, Launched p r ahead

/-- Every segment of the line that takes no number and is no RST trails what goes over before it. -/
def InLine (r : Receiver) (line : List Segment) : Prop :=
  ∀ before segment rest, line = before ++ segment :: rest → segment.sequenceLength = 0 →
    segment.rst = false → ∃ p, Trails p r before segment

variable {p : Progress} {r : Receiver} {line more before : List Segment} {segment : Segment}

theorem InLine.head (inLine : InLine r (segment :: line)) (empty : segment.sequenceLength = 0)
    (plain : segment.rst = false) : ∃ p, Trails p r [] segment :=
  inLine [] segment line rfl empty plain

theorem InLine.take (inLine : InLine r (line ++ more)) : InLine r line := by
  rintro before segment rest rfl empty plain
  exact inLine before segment (rest ++ more) (by simp) empty plain

theorem InLine.push (inLine : InLine r line)
    (trails : segment.sequenceLength = 0 → segment.rst = false → ∃ p, Trails p r line segment) :
    InLine r (line ++ [segment]) := by
  intro before other rest split empty plain
  rcases rest.eq_nil_or_concat with rfl | ⟨others, last, rfl⟩
  · obtain ⟨rfl, same⟩ := List.append_inj' split rfl
    obtain rfl := List.head_eq_of_cons_eq same
    exact trails empty plain
  · rw [List.concat_eq_append, ← List.cons_append, ← List.append_assoc] at split
    exact inLine before other others (List.append_inj' split rfl).1 empty plain

theorem InLine.arrive {arrived : List Segment} {r' : Receiver} (inLine : InLine r (arrived ++ line))
    (goesOn : ∀ p, p.sent.length + 2 < SeqNum.half → r.Keeps p →
      (∀ segment ∈ arrived, Launched p r segment) → r'.Keeps p) (advances : r.Advances r') :
    InLine r' line := by
  rintro before segment rest rfl empty plain
  obtain ⟨p, trails⟩ := inLine (arrived ++ before) segment rest (by simp) empty plain
  refine ⟨p, trails.numbered, trails.short, ?_, fun ahead member => ?_⟩
  · exact goesOn p trails.short trails.keeps fun ahead member =>
      trails.before ahead (List.mem_append_left _ member)
  · exact (trails.before ahead (List.mem_append_right _ member)).advance advances

variable {accepted : Bytes} {ended : Bool} {isn : SeqNum} {incoming : Option Segment}
  {c after : Connection}

theorem Trails.not_probes (trails : Trails p c.receiver before segment) : ¬c.Probes segment := by
  rintro ⟨-, ackno, expected, seqno⟩
  obtain ⟨number, known, rfl⟩ := Option.map_eq_some_iff.mp expected
  obtain ⟨next, numbered, next_le, passed⟩ := trails.numbered
  have follows := trails.keeps.follows
  have next_le' := follows.reassembler.next_le
  have short := trails.short
  have behind := passed (trails.keeps.opened (by simp [known]))
  have position_le : c.receiver.ackPosition ≤ next := by
    unfold Receiver.ackPosition
    cases finished : c.receiver.reassembler.finished with
    | false =>
      rw [Bool.toNat_false]
      omega
    | true =>
      rw [(follows.reassembler.finished finished).1] at behind
      exact Nat.le_trans (Nat.add_le_add_right (Nat.add_le_add_right next_le' 1) _) behind
  rw [follows.isn number known, numbered] at seqno
  exact SeqNum.wrap_ne_before p.isn position_le (by unfold SeqNum.half at short; omega) seqno

theorem Trails.isProbe_eq (trails : Trails p c.receiver before segment) :
    c.isProbe segment = .ok false := by
  have next_le := trails.keeps.follows.reassembler.next_le
  have short := trails.short
  have far := SeqNum.half_add_cycles_le
  have decides : ∃ probe, c.isProbe segment = .ok probe := by
    cases known : c.receiver.isn with
    | some number => exact isProbe_returns segment known (by omega)
    | none =>
      unfold isProbe Receiver.checkedAckno
      rw [known]
      split <;> exact ⟨_, rfl⟩
  obtain ⟨probe, hprobe⟩ := decides
  cases probe with
  | false => exact hprobe
  | true => exact absurd ((isProbe_eq_ok hprobe).mp rfl) trails.not_probes

theorem Paces.waiting (paces : Paces p accepted r c) : ∀ segment ∈ c.waiting, Launched p r segment := by
  intro segment member
  obtain ⟨queued, inside, rfl⟩ := List.mem_map.mp member
  have launched : Launched p r queued := by
    rcases List.mem_append.mp inside with old | new
    · exact paces.queued queued old
    · exact paces.sender.queued queued new
  exact launched.of_same rfl rfl rfl rfl

theorem waiting_push {sender : Sender} (queued_eq : sender.queued = c.sender.queued ++ [segment]) :
    waiting { c with sender } = c.waiting ++ [segment.unstamped] := by
  simp [waiting, queued_eq]

theorem Paces.trails (paces : Paces p accepted r c) (serves : c.sender.Serves accepted ended isn)
    (keeps : r.Keeps p) (short : accepted.length + 2 < SeqNum.half) :
    Trails p r c.waiting (unstamped { seqno := c.sender.nextWire }) := by
  have tracks := paces.sender.tracks
  have length_sent := tracks.length_sent serves
  have cursor_le := serves.cursor_le
  refine ⟨⟨c.sender.nextSeqno, ?_, ?_, fun opened => ?_⟩, by omega, keeps, paces.waiting⟩
  · change c.sender.nextWire = _
    rw [tracks.isn]
    rfl
  · have flag := c.sender.finSent.toNat_le
    unfold Sender.cursor at length_sent
    omega
  · rw [length_sent, tracks.fin, serves.nextSeqno_eq (tracks.inside 0 opened).1]

theorem InLine.part (inLine : InLine r c.waiting) (paces : Paces p accepted r c)
    (guided : Guided accepted ended isn r c) (keeps : r.Keeps p)
    (short : accepted.length + 2 < SeqNum.half) (part : Part incoming c after) :
    InLine r after.waiting := by
  cases part with
  | @sends sender step =>
    rcases step.queued_cases guided.ledger with same | ⟨segment, queued_eq, some | rfl⟩
    · rw [show waiting { c with sender } = c.waiting from congrArg (fun queued =>
        (c.queued ++ queued).map unstamped) same]
      exact inLine
    · rw [waiting_push queued_eq]
      exact inLine.push fun empty => absurd empty (Nat.ne_of_gt some)
    · rw [waiting_push queued_eq]
      exact inLine.push fun _ _ => ⟨p, paces.trails guided.speaks.serves keeps short⟩
  | flushes stamps =>
    have stamped_eq := Receiver.map_unstamped_of_stamps stamps
    rw [waiting, List.map_append] at inLine
    rw [waiting, List.append_nil, List.map_append, stamped_eq]
    exact inLine
  | replaces =>
    rw [waiting, List.map_append] at inLine
    rw [waiting, List.map_append]
    refine inLine.take.push fun _ plain => ?_
    cases plain
  | takes | kills | ages | checks | expires => exact inLine

theorem InLine.parts (inLine : InLine r c.waiting) (paces : Paces p accepted r c)
    (guided : Guided accepted ended isn r c) (keeps : r.Keeps p) (listens : Listens accepted isn r)
    (covered : ∀ segment, incoming = some segment → r.Covers segment)
    (parts : Parts incoming c after) : InLine r after.waiting := by
  have finished : r.reassembler.finished = true → p.fin = true := fun ended =>
    (keeps.follows.reassembler.finished ended).1
  have kept := parts.induction (P := fun x => Guided accepted ended isn r x ∧
    (∃ later, p.Grows later ∧ Paces later accepted r x) ∧ InLine r x.waiting)
    ⟨guided, ⟨p, .refl p, paces⟩, inLine⟩ ?_
  · exact kept.2.2
  · rintro x y part ⟨guided, ⟨middle, grows, paces⟩, inLine⟩
    obtain ⟨later, grows', paces'⟩ :=
      paces.part guided listens (grows.fin ∘ finished) covered part
    exact ⟨guided.part listens covered part, ⟨later, grows.trans grows', paces'⟩,
      inLine.part paces guided (keeps.grow grows) listens.short part⟩

end Connection
end TcpStack

import TcpStack.Proofs.Connection.Acknowledging
import TcpStack.Proofs.Connection.Reset
import TcpStack.Proofs.Receiver.Keeping

/-! Both halves of a connection against the peer. The one lets out nothing but blocks that the peer has let
in, whatever acknowledgments come and however old they are; the other keeps each block that comes. -/

namespace TcpStack.Connection

open Outcome

open Sender (Progress Launched)

structure Paces (p : Progress) (accepted : Bytes) (r : Receiver) (c : Connection) : Prop where
  sender : Sender.Paces p accepted r c.sender
  queued : ∀ segment ∈ c.queued, Launched p r segment

structure Guided (accepted : Bytes) (ended : Bool) (isn : SeqNum) (r : Receiver) (c : Connection) :
    Prop where
  speaks : Speaks accepted ended isn c
  ledger : c.sender.Ledger
  below : c.sender.highestAck ≤ r.acknowledged

variable {p : Progress} {accepted : Bytes} {ended : Bool} {isn : SeqNum} {r : Receiver}
  {incoming : Option Segment} {c after : Connection}

structure Listens (accepted : Bytes) (isn : SeqNum) (r : Receiver) : Prop where
  same : ∀ number, r.isn = some number → number = isn
  short : accepted.length + 2 < SeqNum.half
  heard : r.acknowledged ≤ accepted.length + 2

theorem Listens.granted (listens : Listens accepted isn r)
    (covered : ∀ segment, incoming = some segment → r.Covers segment) :
    Sender.Granted isn r (incoming.bind Segment.offer) := by
  intro ackno window offer
  obtain ⟨segment, came, offer⟩ := Option.bind_eq_some_iff.mp offer
  unfold Segment.offer at offer
  split at offer
  · rename_i ack
    cases offer
    obtain ⟨number, position, known, ackno, position_le, edge⟩ := covered segment came ack
    rw [listens.same number known] at ackno
    exact ⟨position, ackno, by simpa [Receiver.acknowledged, known] using position_le, edge⟩
  · cases offer

theorem Guided.part (guided : Guided accepted ended isn r c) (listens : Listens accepted isn r)
    (covered : ∀ segment, incoming = some segment → r.Covers segment) (part : Part incoming c after) :
    Guided accepted ended isn r after := by
  refine ⟨guided.speaks.part part, part.ledger guided.ledger,
    part.highestAck_le guided.speaks guided.ledger listens.short listens.heard ?_ guided.below⟩
  intro segment came ack
  obtain ⟨number, position, known, ackno, position_le, -⟩ := covered segment came ack
  rw [listens.same number known] at ackno
  exact ⟨position, ackno, by simpa [Receiver.acknowledged, known] using position_le⟩

theorem Paces.part (paces : Paces p accepted r c) (guided : Guided accepted ended isn r c)
    (listens : Listens accepted isn r) (finished : r.reassembler.finished = true → p.fin = true)
    (covered : ∀ segment, incoming = some segment → r.Covers segment) (part : Part incoming c after) :
    ∃ later, p.Grows later ∧ Paces later accepted r after := by
  have serves := guided.speaks.serves
  cases part with
  | sends step =>
    obtain ⟨later, grows, sender⟩ := paces.sender.step serves guided.ledger guided.below finished
      listens.short listens.heard (listens.granted covered) step
    exact ⟨later, grows, sender, fun segment member => (paces.queued segment member).grow grows⟩
  | takes | ages | checks | expires => exact ⟨p, .refl p, paces.sender, paces.queued⟩
  | flushes stamps =>
    refine ⟨p, .refl p, paces.sender.of_same rfl rfl rfl (by simp) paces.sender.inFlight
      paces.sender.edge, fun segment member => ?_⟩
    rcases List.mem_append.mp member with old | new
    · exact paces.queued segment old
    · obtain ⟨plain, inside, hstamp⟩ := mem_of_mapM stamps new
      obtain ⟨syn, seqno, payload, fin, -⟩ := Receiver.stamp_same hstamp
      exact (paces.sender.queued plain inside).of_same syn seqno payload fin
  | replaces =>
    refine ⟨p, .refl p, paces.sender.of_same rfl rfl rfl (fun segment member => ?_)
      paces.sender.inFlight paces.sender.edge, paces.queued⟩
    exact List.mem_singleton.mp member ▸ paces.sender.tracks.bare serves r rfl rfl rfl rfl
  | kills =>
    exact ⟨p, .refl p, paces.sender.of_same rfl rfl rfl paces.sender.queued paces.sender.inFlight
      paces.sender.edge, paces.queued⟩

theorem Paces.parts (paces : Paces p accepted r c) (guided : Guided accepted ended isn r c)
    (listens : Listens accepted isn r) (finished : r.reassembler.finished = true → p.fin = true)
    (covered : ∀ segment, incoming = some segment → r.Covers segment)
    (parts : Parts incoming c after) : ∃ later, p.Grows later ∧ Paces later accepted r after := by
  have kept := parts.induction (P := fun x => Guided accepted ended isn r x ∧
    ∃ later, p.Grows later ∧ Paces later accepted r x) ⟨guided, p, .refl p, paces⟩ ?_
  · exact kept.2
  · rintro x y part ⟨guided, middle, grows, paces⟩
    obtain ⟨later, grows', paces'⟩ :=
      paces.part guided listens (grows.fin ∘ finished) covered part
    exact ⟨guided.part listens covered part, later, grows.trans grows', paces'⟩

theorem Paces.advance (paces : Paces p accepted r c) {r' : Receiver} (advances : r.Advances r') :
    Paces p accepted r' c :=
  ⟨⟨paces.sender.tracks, fun segment member => (paces.sender.queued segment member).advance advances,
    fun item member => (paces.sender.inFlight item member).advance advances,
    Nat.le_trans paces.sender.edge advances.edge⟩,
    fun segment member => (paces.queued segment member).advance advances⟩

theorem Paces.withStream (paces : Paces p accepted r c)
    (speaks : Speaks accepted ended isn c) (stream : ByteStream) (more : Bytes) :
    Paces p (accepted ++ more) r { c with sender := { c.sender with stream } } := by
  have tracks := paces.sender.tracks
  refine ⟨⟨⟨tracks.isn, ?_, tracks.fin, tracks.opened, tracks.inside⟩, paces.sender.queued,
    paces.sender.inFlight, paces.sender.edge⟩, paces.queued⟩
  rw [tracks.sent]
  exact (List.take_append_of_le_length speaks.serves.cursor_le).symm

theorem keeps_part (keeps : c.receiver.Keeps p)
    (launched : ∀ segment, incoming = some segment → Launched p c.receiver segment)
    (short : p.sent.length + 2 < SeqNum.half) (part : Part incoming c after) :
    after.receiver.Keeps p ∧ c.receiver.Advances after.receiver ∧
      ∀ i, c.receiver.reassembler.Holds i → after.receiver.reassembler.Holds i := by
  cases part with
  | sends | flushes | replaces | ages | checks | expires =>
    exact ⟨keeps, .refl _, fun _ held => held⟩
  | takes came takes =>
    exact ⟨keeps.takes (launched _ came) short takes, takes.advances keeps.rests.sound,
      fun _ => keeps.holds (launched _ came) short takes⟩
  | kills =>
    refine ⟨keeps.withOutput ?_ (Nat.le_refl _) rfl, ⟨fun _ known => known, Nat.le_refl _, id,
      Nat.le_refl _⟩, fun _ held => held⟩
    exact keeps.rests.withOutput keeps.rests.sound.fail (Nat.le_refl _) rfl rfl rfl

theorem keeps_parts (keeps : c.receiver.Keeps p)
    (launched : ∀ segment, incoming = some segment → Launched p c.receiver segment)
    (short : p.sent.length + 2 < SeqNum.half) (parts : Parts incoming c after) :
    after.receiver.Keeps p ∧
      ∀ i, c.receiver.reassembler.Holds i → after.receiver.reassembler.Holds i := by
  have kept := parts.induction (P := fun x => x.receiver.Keeps p ∧
    c.receiver.Advances x.receiver ∧
      ∀ i, c.receiver.reassembler.Holds i → x.receiver.reassembler.Holds i)
    ⟨keeps, .refl _, fun _ held => held⟩ ?_
  · exact ⟨kept.1, kept.2.2⟩
  · rintro x y part ⟨keeps, advances, holds⟩
    obtain ⟨keeps', advances', holds'⟩ := keeps_part keeps
      (fun segment came => (launched segment came).advance advances) short part
    exact ⟨keeps', advances.trans advances', fun i held => holds' i (holds i held)⟩

theorem Handles.takes_payload {segment : Segment} (handles : Handles c segment after)
    (active : c.active = true) (known : c.receiver.isn ≠ none) (plain : segment.rst = false)
    (some : segment.payload ≠ []) (legal : c.acceptsAck segment = .ok true) :
    ∃ middle accepted, c.receiver.Takes segment middle.receiver accepted ∧ Parts none middle after := by
  cases handles with
  | sleeps inactive => simp [active] at inactive
  | passes _ ignored =>
    cases ignored with
    | unasked unknown | strayReset unknown | noAnswer unknown => exact absurd unknown known
    | outside _ rst => simp [plain] at rst
  | ends _ rst => simp [plain] at rst
  | answers _ _ _ reason =>
    rcases reason with illegal | probes
    · simp [legal] at illegal
    · have empty := ((isProbe_eq_ok probes).mp rfl).1
      exact absurd (List.eq_nil_of_length_eq_zero (Nat.eq_zero_of_add_eq_zero
        (Nat.eq_zero_of_add_eq_zero empty).1).1) some
  | takes _ _ _ _ takes replies => exact ⟨_, _, takes, replies.parts⟩

end TcpStack.Connection

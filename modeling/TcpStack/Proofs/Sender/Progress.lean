import TcpStack.Proofs.Receiver.Advance
import TcpStack.Proofs.Sender.Ledger

/-! How far a sender has come, against the window of the receiver. A segment is cut once and for all: what
is sent again is the same segment, so the cuts divide the stream into blocks that always travel whole. Each
block was inside the window of the receiver when it was cut, or is a single byte that probes it. -/

namespace TcpStack

open Outcome

namespace Sender

/-- What of the stream was sent, whether its end was, and the positions between two segments. The first of
them is at the start, once the SYN was sent. -/
structure Progress where
  isn : SeqNum
  sent : Bytes
  fin : Bool
  cuts : Nat → Prop

namespace Progress

def start (isn : SeqNum) : Progress := ⟨isn, [], false, fun _ => False⟩

structure Grows (p later : Progress) : Prop where
  isn : later.isn = p.isn
  sent : ∃ more, later.sent = p.sent ++ more ∧ (p.fin = true → more = [])
  fin : p.fin = true → later.fin = true
  stay : ∀ i, p.cuts i → later.cuts i
  new : ∀ i, later.cuts i → p.cuts i ∨ p.sent.length ≤ i

theorem Grows.refl (p : Progress) : Grows p p :=
  ⟨rfl, ⟨[], (List.append_nil _).symm, fun _ => rfl⟩, id, fun _ cut => cut, fun _ cut => Or.inl cut⟩

theorem Grows.trans {p middle later : Progress} (first : Grows p middle)
    (second : Grows middle later) : Grows p later := by
  obtain ⟨more, sent, closed⟩ := first.sent
  obtain ⟨more', sent', closed'⟩ := second.sent
  refine ⟨second.isn.trans first.isn, ⟨more ++ more', ?_, fun fin => ?_⟩, second.fin ∘ first.fin,
    fun i cut => second.stay i (first.stay i cut), fun i cut => ?_⟩
  · rw [sent', sent, List.append_assoc]
  · rw [closed fin, closed' (first.fin fin), List.append_nil]
  · rcases second.new i cut with cut | behind
    · exact first.new i cut
    · rw [sent, List.length_append] at behind
      exact Or.inr (by omega)

structure Block (p : Progress) (first stop : Nat) : Prop where
  starts : p.cuts first
  stops : p.cuts stop
  uncut : ∀ i, first < i → i < stop → ¬p.cuts i

theorem Block.grow {p later : Progress} {first stop : Nat} (block : p.Block first stop)
    (grows : p.Grows later) (inside : stop ≤ p.sent.length) : later.Block first stop := by
  refine ⟨grows.stay _ block.starts, grows.stay _ block.stops, fun i behind before cut => ?_⟩
  rcases grows.new i cut with old | new
  · exact block.uncut i behind before old
  · omega

def send (p : Progress) (payload : Bytes) (fin : Bool) : Progress :=
  { p with
    sent := p.sent ++ payload
    fin
    cuts := fun i => p.cuts i ∨ i = p.sent.length + payload.length }

theorem grows_send {p : Progress} (going : p.fin = false) (payload : Bytes) (fin : Bool) :
    p.Grows (p.send payload fin) := by
  refine ⟨rfl, ⟨payload, rfl, fun ended => ?_⟩, fun ended => ?_, fun i cut => Or.inl cut,
    fun i cut => ?_⟩
  · simp [going] at ended
  · simp [going] at ended
  · rcases cut with old | rfl
    · exact Or.inl old
    · exact Or.inr (Nat.le_add_right _ _)

end Progress

theorem Progress.Grows.carry {p later : Progress} (grows : p.Grows later)
    {P : Bytes → Bool → Prop} (here : P p.sent p.fin)
    (grow : ∀ whole ended more, (ended = true → more = []) → P whole ended → P (whole ++ more) ended)
    (stop : ∀ whole, P whole false → P whole true) : P later.sent later.fin := by
  obtain ⟨more, sent, closed⟩ := grows.sent
  have grown := grow _ _ more closed here
  rw [← sent] at grown
  cases fin : p.fin with
  | true => rwa [grows.fin fin, ← fin]
  | false =>
    rw [fin] at grown
    cases later.fin with
    | false => exact grown
    | true => exact stop _ grown

/-- A segment that was let out: it tells the truth about what was sent, its payload is a block, and it is
inside the window or probes it. -/
structure Launched (p : Progress) (r : Receiver) (segment : Segment) : Prop where
  faithful : segment.Faithful p.sent p.fin p.isn
  opening : segment.syn = true → p.cuts 0
  block : segment.payload ≠ [] → ∃ index, segment.seqno = SeqNum.wrap (index + 1) p.isn ∧
    p.sent.HasAt index segment.payload ∧ p.Block index (index + segment.payload.length) ∧
    (index + segment.payload.length ≤ r.limit ∨
      segment.payload.length = 1 ∧ index ≤ r.reassembler.nextIndex)

variable {p later : Progress} {r after : Receiver} {segment : Segment}

theorem Launched.grow (launched : Launched p r segment) (grows : p.Grows later) :
    Launched later r segment := by
  have faithful : segment.Faithful later.sent later.fin p.isn :=
    grows.carry (P := fun whole ended => segment.Faithful whole ended p.isn) launched.faithful
      (fun _ _ _ closed faithful => faithful.grow closed) fun _ faithful => faithful.end_stream
  refine ⟨grows.isn ▸ faithful, fun syn => grows.stay 0 (launched.opening syn), fun some => ?_⟩
  obtain ⟨index, seqno, piece, block, fits⟩ := launched.block some
  obtain ⟨more, sent, -⟩ := grows.sent
  refine ⟨index, grows.isn ▸ seqno, ?_, block.grow grows (piece.stop_le some), fits⟩
  rw [sent]
  exact piece.grow more

theorem Launched.advance (launched : Launched p r segment) (advances : r.Advances after) :
    Launched p after segment := by
  refine ⟨launched.faithful, launched.opening, fun some => ?_⟩
  obtain ⟨index, seqno, piece, block, fits⟩ := launched.block some
  refine ⟨index, seqno, piece, block, ?_⟩
  rcases fits with inside | ⟨one, probes⟩
  · exact Or.inl (Nat.le_trans inside advances.limit)
  · exact Or.inr ⟨one, Nat.le_trans probes advances.next⟩

theorem Launched.of_same (launched : Launched p r segment) {other : Segment}
    (syn : other.syn = segment.syn) (seqno : other.seqno = segment.seqno)
    (payload : other.payload = segment.payload) (fin : other.fin = segment.fin) :
    Launched p r other := by
  refine ⟨launched.faithful.of_same syn seqno payload fin, fun h => launched.opening (syn ▸ h), ?_⟩
  rw [payload, seqno]
  exact launched.block

structure Tracks (p : Progress) (accepted : Bytes) (s : Sender) : Prop where
  isn : p.isn = s.isn
  sent : p.sent = accepted.take s.cursor
  fin : p.fin = s.finSent
  opened : 0 < s.nextSeqno → p.cuts s.cursor
  inside : ∀ i, p.cuts i → 0 < s.nextSeqno ∧ i ≤ s.cursor

variable {accepted : Bytes} {ended : Bool} {isn : SeqNum} {s s' : Sender}

theorem tracks_initial (capacity timeout : Nat) (isn : SeqNum) :
    Tracks (.start isn) [] (initial capacity timeout isn) := by
  refine ⟨rfl, rfl, rfl, fun opened => ?_, fun i cut => cut.elim⟩
  cases opened

theorem Tracks.of_same (tracks : Tracks p accepted s) (isn_eq : s'.isn = s.isn)
    (next_eq : s'.nextSeqno = s.nextSeqno) (fin_eq : s'.finSent = s.finSent) :
    Tracks p accepted s' := by
  have cursor_eq : s'.cursor = s.cursor := by rw [cursor, cursor, next_eq, fin_eq]
  refine ⟨tracks.isn.trans isn_eq.symm, ?_, tracks.fin.trans fin_eq.symm, ?_, ?_⟩
  · rw [cursor_eq]
    exact tracks.sent
  · rw [next_eq, cursor_eq]
    exact tracks.opened
  · rw [next_eq, cursor_eq]
    exact tracks.inside

theorem Tracks.length_sent (tracks : Tracks p accepted s) (serves : Serves accepted ended isn s) :
    p.sent.length = s.cursor := by
  rw [tracks.sent, List.length_take, Nat.min_eq_left serves.cursor_le]

/-- The sender lets out nothing but launched segments, and what it may send the receiver has let in. -/
structure Paces (p : Progress) (accepted : Bytes) (r : Receiver) (s : Sender) : Prop where
  tracks : Tracks p accepted s
  queued : ∀ segment ∈ s.queued, Launched p r segment
  inFlight : ∀ item ∈ s.outstanding, Launched p r item.segment
  edge : s.highestAck + s.window.toNat ≤ r.edge

theorem Paces.of_same (paces : Paces p accepted r s) (isn_eq : s'.isn = s.isn)
    (next_eq : s'.nextSeqno = s.nextSeqno) (fin_eq : s'.finSent = s.finSent)
    (queued : ∀ segment ∈ s'.queued, Launched p r segment)
    (inFlight : ∀ item ∈ s'.outstanding, Launched p r item.segment)
    (edge : s'.highestAck + s'.window.toNat ≤ r.edge) : Paces p accepted r s' :=
  ⟨paces.tracks.of_same isn_eq next_eq fin_eq, queued, inFlight, edge⟩

theorem Paces.sends (paces : Paces p accepted r s) (grows : p.Grows later) {segment : Segment}
    (launched : Launched later r { segment with seqno := s.nextWire }) {stream : ByteStream}
    {finSent : Bool} (tracks : Tracks later accepted (afterSend { s with stream, finSent } segment)) :
    Paces later accepted r (afterSend { s with stream, finSent } segment) := by
  refine ⟨tracks, ?_, ?_, paces.edge⟩
  · exact forall_mem_concat (fun segment member => (paces.queued segment member).grow grows) launched
  · exact forall_mem_concat (fun item member => (paces.inFlight item member).grow grows) launched

theorem Paces.opens (paces : Paces p accepted r s) (serves : Serves accepted ended isn s)
    (unopened : s.nextSeqno = 0) :
    ∃ later, p.Grows later ∧ Paces later accepted r (s.afterSend { syn := true }) := by
  have tracks := paces.tracks
  have going : s.finSent = false := by
    cases fin : s.finSent with
    | false => rfl
    | true => have two := (serves.finished fin).1; omega
  have cursor_zero : s.cursor = 0 := by
    unfold cursor
    omega
  have cursor_eq : (s.afterSend { syn := true }).cursor = 0 := by
    simp [cursor, afterSend, going, unopened, Segment.sequenceLength]
  have nothing : p.sent = [] := by rw [tracks.sent, cursor_zero, List.take_zero]
  have launched : Launched (p.send [] false) r { syn := true, seqno := s.nextWire } := by
    refine ⟨.opening rfl ?_ rfl rfl, fun _ => Or.inr ?_, fun some => absurd rfl some⟩
    · change s.nextWire = p.isn
      rw [nextWire, unopened, SeqNum.wrap_zero, tracks.isn]
    · rw [nothing]
      rfl
  have opened : Tracks (p.send [] false) accepted (s.afterSend { syn := true }) := by
    refine ⟨tracks.isn, ?_, going.symm, fun _ => Or.inr ?_, fun i cut => ?_⟩
    · rw [cursor_eq, List.take_zero, Progress.send, nothing]
      rfl
    · rw [cursor_eq, nothing]
      rfl
    · rw [cursor_eq]
      refine ⟨Nat.lt_of_lt_of_le Nat.zero_lt_one (Nat.le_add_left _ _), ?_⟩
      rcases cut with old | rfl
      · exact absurd (tracks.inside i old).1 (by omega)
      · simp [nothing]
  have grows := p.grows_send (tracks.fin.trans going) [] false
  exact ⟨_, grows, paces.sends grows launched opened⟩

theorem Paces.cuts_within (paces : Paces p accepted r s) (serves : Serves accepted ended isn s)
    (ledger : Ledger s) (opened : 0 < s.nextSeqno) (going : s.finSent = false)
    (room : s.nextSeqno - s.highestAck < s.probingWindow) (below : s.highestAck ≤ r.acknowledged)
    (unfinished : r.reassembler.finished = false) {length : Nat} (some : 0 < length)
    (le : length ≤ s.budget) :
    s.cursor + length ≤ r.limit ∨ length = 1 ∧ s.cursor ≤ r.reassembler.nextIndex := by
  have edge := paces.edge
  have next_eq : s.nextSeqno = s.cursor + 1 := by simpa [going] using serves.nextSeqno_eq opened
  have highestAck_le := ledger.highestAck_le
  rw [Receiver.edge_eq, unfinished, Bool.toNat_false, Nat.add_zero] at edge
  unfold budget probingWindow at *
  by_cases closed : s.window.toNat = 0
  · refine Or.inr ⟨by omega, ?_⟩
    unfold Receiver.acknowledged Receiver.ackPosition at below
    rw [unfinished, Bool.toNat_false] at below
    split at below <;> omega
  · exact Or.inl (by omega)

theorem cut_hasAt (serves : Serves accepted ended isn s) {stream : ByteStream} {payload : Bytes}
    {fin : Bool} (hcut : cut s.stream s.budget = .ok (stream, payload, fin)) :
    accepted.HasAt s.cursor payload ∧ payload.length ≤ s.budget := by
  obtain ⟨rfl, -, -⟩ := cut_spec serves.sound hcut
  refine ⟨?_, List.length_take_le _ _⟩
  rw [serves.waiting]
  exact Bytes.hasAt_drop_take accepted s.cursor s.budget

theorem Tracks.cuts (tracks : Tracks p accepted s) (serves : Serves accepted ended isn s)
    (opened : 0 < s.nextSeqno) (going : s.finSent = false) {payload : Bytes}
    (piece : accepted.HasAt s.cursor payload) (stream : ByteStream) (fin : Bool) :
    Tracks (p.send payload fin) accepted
      (afterSend { s with stream, finSent := fin } { payload, fin }) := by
  have cursor_eq := cursor_afterSend opened going stream payload fin
  have length_sent := tracks.length_sent serves
  refine ⟨tracks.isn, ?_, rfl, fun _ => Or.inr ?_, fun i cut => ?_⟩
  · rw [cursor_eq, ← piece.take_append serves.cursor_le, ← tracks.sent]
    rfl
  · rw [cursor_eq, length_sent]
  · rw [cursor_eq]
    refine ⟨Nat.add_pos_left opened _, ?_⟩
    rcases cut with old | rfl
    · exact Nat.le_add_right_of_le (tracks.inside i old).2
    · rw [length_sent]

theorem Tracks.block (tracks : Tracks p accepted s) (serves : Serves accepted ended isn s)
    (opened : 0 < s.nextSeqno) (payload : Bytes) (fin : Bool) :
    (p.send payload fin).Block s.cursor (s.cursor + payload.length) := by
  have length_sent := tracks.length_sent serves
  refine ⟨Or.inl (tracks.opened opened), Or.inr (by rw [length_sent]), ?_⟩
  rintro i behind before (old | rfl)
  · have inside := (tracks.inside i old).2
    omega
  · omega

theorem Paces.launches (paces : Paces p accepted r s) (serves : Serves accepted ended isn s)
    (ledger : Ledger s) (below : s.highestAck ≤ r.acknowledged)
    (finished : r.reassembler.finished = true → p.fin = true) {payload : Bytes} {fin : Bool}
    (opened : 0 < s.nextSeqno) (going : s.finSent = false)
    (room : s.nextSeqno - s.highestAck < s.probingWindow) (length_le : payload.length ≤ s.budget) :
    Launched (p.send payload fin) r { payload, fin, seqno := s.nextWire } := by
  have tracks := paces.tracks
  have length_sent := tracks.length_sent serves
  have next_eq : s.nextSeqno = s.cursor + 1 := by simpa [going] using serves.nextSeqno_eq opened
  have seqno : s.nextWire = SeqNum.wrap (s.cursor + 1) p.isn := by
    rw [nextWire, tracks.isn, next_eq]
  have here : (p.send payload fin).sent.HasAt s.cursor payload :=
    length_sent ▸ Bytes.hasAt_append_right p.sent payload
  have length_eq : (p.send payload fin).sent.length = s.cursor + payload.length := by
    rw [Progress.send, List.length_append, length_sent]
  refine ⟨.carries s.cursor (by omega) rfl seqno here fun h => ⟨h, length_eq.symm⟩,
    (fun syn => by cases syn), fun some => ⟨s.cursor, seqno, here,
      tracks.block serves opened payload fin, ?_⟩⟩
  have unfinished : r.reassembler.finished = false := by
    by_contra ended
    have sent := tracks.fin.symm.trans (finished (by simpa using ended))
    simp [going] at sent
  exact paces.cuts_within serves ledger opened going room below unfinished
    (List.length_pos_iff.mpr some) length_le

theorem Paces.cuts (paces : Paces p accepted r s) (serves : Serves accepted ended isn s)
    (ledger : Ledger s) (below : s.highestAck ≤ r.acknowledged)
    (finished : r.reassembler.finished = true → p.fin = true) {stream : ByteStream} {payload : Bytes}
    {fin : Bool} (opened : 0 < s.nextSeqno) (going : s.finSent = false)
    (room : s.nextSeqno - s.highestAck < s.probingWindow)
    (hcut : cut s.stream s.budget = .ok (stream, payload, fin)) :
    ∃ later, p.Grows later ∧
      Paces later accepted r (afterSend { s with stream, finSent := fin } { payload, fin }) := by
  obtain ⟨piece, length_le⟩ := cut_hasAt serves hcut
  have grows := p.grows_send (paces.tracks.fin.trans going) payload fin
  have launched : Launched (p.send payload fin) r { payload, fin, seqno := s.nextWire } :=
    paces.launches serves ledger below finished opened going room length_le
  exact ⟨_, grows, paces.sends grows launched
    (paces.tracks.cuts serves opened going piece stream fin)⟩

def Granted (isn : SeqNum) (r : Receiver) (offer : Option (SeqNum × UInt16)) : Prop :=
  ∀ ackno window, offer = some (ackno, window) → ∃ position, ackno = SeqNum.wrap position isn ∧
    position ≤ r.acknowledged ∧ position + window.toNat ≤ r.edge

theorem Granted.unwrap {offer : Option (SeqNum × UInt16)} (granted : Granted isn r offer)
    (serves : Serves accepted ended isn s) (ledger : Ledger s)
    (short : accepted.length + 2 < SeqNum.half) (heard : r.acknowledged ≤ accepted.length + 2)
    {ackno : SeqNum} {window : UInt16} {ack : Nat} (offered : offer = some (ackno, window))
    (hunwrap : ackno.unwrap s.isn s.highestAck = .ok ack) : ack + window.toNat ≤ r.edge := by
  obtain ⟨position, rfl, position_le, edge⟩ := granted _ _ offered
  have highestAck_le := ledger.highestAck_le
  have nextSeqno_le := serves.nextSeqno_le
  rw [serves.isn_eq] at hunwrap
  rwa [SeqNum.unwrap_wrap_of_lt_half (by omega) (by omega) hunwrap]

theorem Tracks.bare (tracks : Tracks p accepted s) (serves : Serves accepted ended isn s)
    (r : Receiver) {segment : Segment} (syn : segment.syn = false)
    (seqno : segment.seqno = s.nextWire) (payload : segment.payload = [])
    (fin : segment.fin = false) : Launched p r segment := by
  have length_sent := tracks.length_sent serves
  have flag := s.finSent.toNat_le
  unfold cursor at length_sent
  refine ⟨.bare s.nextSeqno (by omega) syn ?_ payload fin, fun opens => ?_, fun some => ?_⟩
  · rw [seqno, nextWire, tracks.isn]
  · simp [syn] at opens
  · exact absurd payload some

theorem Paces.step {offer : Option (SeqNum × UInt16)} (paces : Paces p accepted r s)
    (serves : Serves accepted ended isn s) (ledger : Ledger s)
    (below : s.highestAck ≤ r.acknowledged)
    (finished : r.reassembler.finished = true → p.fin = true)
    (short : accepted.length + 2 < SeqNum.half) (heard : r.acknowledged ≤ accepted.length + 2)
    (granted : Granted isn r offer) (step : Step offer s s') :
    ∃ later, p.Grows later ∧ Paces later accepted r s' := by
  cases step with
  | opens unopened => exact paces.opens serves unopened
  | cuts opened going room hcut =>
    exact paces.cuts serves ledger below finished opened going room hcut
  | hears offered hunwrap current =>
    refine ⟨p, .refl p, paces.of_same rfl rfl rfl paces.queued paces.inFlight ?_⟩
    have edge := granted.unwrap serves ledger short heard offered hunwrap
    simp only
    omega
  | acks offered hunwrap _ _ hadvance =>
    obtain ⟨_, _, _, _, hrelease, rfl⟩ := advance_eq_ok hadvance
    exact ⟨p, .refl p, paces.of_same rfl rfl rfl paces.queued
      (fun item member => paces.inFlight item (mem_of_release hrelease member))
      (granted.unwrap serves ledger short heard offered hunwrap)⟩
  | ages => exact ⟨p, .refl p, paces.of_same rfl rfl rfl paces.queued paces.inFlight paces.edge⟩
  | @resends oldest rest attempt _ _ inFlight =>
    have launched := paces.inFlight oldest (by simp [inFlight])
    refine ⟨p, .refl p, paces.of_same rfl rfl rfl ?_ ?_ paces.edge⟩
    · exact forall_mem_concat paces.queued launched
    · intro item member
      rcases List.mem_cons.mp member with rfl | old
      · exact launched
      · exact paces.inFlight item (by simp [inFlight, old])
  | replies =>
    have launched : Launched p r { seqno := s.nextWire } := paces.tracks.bare serves r rfl rfl rfl rfl
    exact ⟨p, .refl p, paces.of_same rfl rfl rfl (forall_mem_concat paces.queued launched)
      paces.inFlight paces.edge⟩

end Sender
end TcpStack

import TcpStack.Proofs.Connection.Reachable
import TcpStack.Proofs.Receiver.Window

/-! What an RST does to a connection that knows the peer's number: it ends it or is passed over, and
which of the two is decided by the receive window alone. -/

namespace TcpStack.Connection

open Outcome

variable {c after : Connection} {isn : SeqNum} {segment : Segment}

/-- The segment takes no number and stands one number before the next expected. -/
def Probes (c : Connection) (segment : Segment) : Prop :=
  segment.sequenceLength = 0 ∧
    ∃ ackno, c.receiver.ackno = some ackno ∧ segment.seqno = ackno - (1 : UInt32)

theorem isProbe_eq_ok {probe : Bool} (h : c.isProbe segment = .ok probe) :
    probe = true ↔ c.Probes segment := by
  unfold isProbe at h
  unfold Probes
  by_cases empty : segment.sequenceLength = 0
  · rw [if_pos empty, map_eq_ok] at h
    obtain ⟨ackno, hackno, rfl⟩ := h
    rw [Receiver.ackno_of_checkedAckno hackno]
    cases ackno with
    | none => simp
    | some ackno =>
      simp only [Option.map_some, beq_iff_eq, Option.some.injEq, exists_eq_left', empty, true_and]
      exact eq_comm
  · rw [if_neg empty, pure_eq_ok] at h
    simp [empty, ← h]

theorem isProbe_returns (segment : Segment) (known : c.receiver.isn = some isn)
    (short : c.receiver.reassembler.nextIndex + 2 < Count.bound) :
    ∃ probe, c.isProbe segment = .ok probe := by
  unfold isProbe
  split
  · rw [Receiver.checkedAckno_returns known short]
    exact ⟨_, rfl⟩
  · exact ⟨_, rfl⟩

theorem named_kill (c : Connection) (cause : Option ResetCause) :
    (c.kill cause).summary.named = some .reset := by
  have sender : (c.kill cause).sender.state = .error := rfl
  have receiver : (c.kill cause).receiver.state = .error := rfl
  unfold summary
  rw [sender, receiver]
  rfl

theorem named_of_active (c : Connection) (active : c.active = true) :
    c.summary.named ≠ some .reset := by
  intro named
  have inactive : false = c.active :=
    congrArg Summary.active (Summary.named_eq_some_iff.mp named)
  rw [active] at inactive
  cases inactive

theorem segmentReceived_rst (active : c.active = true) (known : c.receiver.isn = some isn)
    (rst : segment.rst = true) (h : (c.segmentReceived segment).result = .ok after) :
    (∃ inside, c.receiver.inWindow segment = .ok inside) ∧
      ((c.receiver.InWindow isn segment ∨ c.Probes segment) ∧
          after = kill { c with idle := 0 } (some .byPeer) ∨
        ¬(c.receiver.InWindow isn segment ∨ c.Probes segment) ∧ after = { c with idle := 0 }) := by
  obtain ⟨_, receives⟩ := segmentReceived_eq_ok_iff.mp h
  cases receives with
  | sleeps inactive => cases active.symm.trans inactive
  | listening _ unknown | synSent _ unknown => cases known.symm.trans unknown
  | synchronized _ _ receives =>
    cases receives with
    | ignores _ apart quiet =>
      refine ⟨⟨_, apart⟩, Or.inr ⟨?_, rfl⟩⟩
      rintro (inside | probes)
      · cases (Receiver.inWindow_eq_ok known apart).mpr inside
      · cases (isProbe_eq_ok quiet).mpr probes
    | ends _ place probes counts =>
      refine ⟨⟨_, place⟩, Or.inl ⟨?_, rfl⟩⟩
      rcases counts with rfl | rfl
      · exact Or.inl ((Receiver.inWindow_eq_ok known place).mp rfl)
      · exact Or.inr ((isProbe_eq_ok probes).mp rfl)
    | answers plain | takes plain => cases rst.symm.trans plain

theorem ended_of_inWindow (active : c.active = true) (known : c.receiver.isn = some isn)
    (rst : segment.rst = true) (h : (c.segmentReceived segment).result = .ok after)
    (inside : c.receiver.InWindow isn segment) : after.active = false := by
  obtain ⟨-, ⟨-, ended⟩ | ⟨passes, -⟩⟩ := segmentReceived_rst active known rst h
  · rw [ended]
    rfl
  · exact absurd (Or.inl inside) passes

theorem segmentReceived_rst_returns (intact : Intact c) (active : c.active = true)
    (known : c.receiver.isn = some isn) (rst : segment.rst = true)
    (short : c.receiver.reassembler.nextIndex + c.receiver.reassembler.capacity +
      segment.payload.length + 2 * SeqNum.cycle ≤ Count.bound) :
    ∃ after, (c.segmentReceived segment).result = .ok after := by
  have cycle_eq := SeqNum.cycle_eq
  have fits : c.receiver.stream.size ≤ c.receiver.reassembler.capacity :=
    intact.cells ▸ intact.inbound.size_le
  obtain ⟨inside, place⟩ := Receiver.inWindow_returns segment known fits short
  have far : c.receiver.reassembler.nextIndex + 2 < Count.bound := by omega
  obtain ⟨probe, probes⟩ := isProbe_returns (c := { c with idle := 0 }) segment known far
  have known' : c.receiver.isn ≠ none := Option.ne_none_iff_exists'.mpr ⟨isn, known⟩
  have receives : ∃ asked after, ReceivesSynchronized { c with idle := 0 } segment asked after := by
    cases inside with
    | true => exact ⟨_, _, .ends rst place probes (Or.inl rfl)⟩
    | false =>
      cases probe with
      | true => exact ⟨_, _, .ends rst place probes (Or.inr rfl)⟩
      | false => exact ⟨_, _, .ignores rst place probes⟩
  obtain ⟨_, after, receives⟩ := receives
  exact ⟨after, segmentReceived_eq_ok_iff.mpr ⟨_, .synchronized active known' receives⟩⟩

/-- An RST in the window, or one that probes, as far as its number alone tells. -/
def Warrants (c : Connection) (isn : SeqNum) (segment : Segment) : Prop :=
  (∃ absolute, segment.seqno.unwrap isn c.receiver.reassembler.nextIndex = .ok absolute ∧
    c.receiver.Meets absolute segment.payload.length) ∨ c.Probes segment

/-- Which RSTs end a connection. Two kinds get through although their number is outside the window: one
with a SYN, which counts as one at the start of the stream, and one whose bytes lie around an empty
window. Every other RST outside the window is passed over. -/
theorem ended_by_rst_iff (reachable : Reachable ByteStream.Call.spares c)
    (active : c.active = true) (known : c.receiver.isn = some isn) (rst : segment.rst = true) :
    (∀ after, (c.segmentReceived segment).result = .ok after →
      (after.active = false ↔
        segment.syn = true ∧ c.receiver.Overlaps 0 segment.payload.length ∨
        segment.syn = false ∧ (∃ index,
          segment.seqno.unwrap isn c.receiver.reassembler.nextIndex = .ok (index + 1) ∧
          (c.receiver.Meets (index + 1) segment.payload.length ∨
            c.receiver.window = 0 ∧ index < c.receiver.reassembler.nextIndex ∧
              c.receiver.reassembler.nextIndex < index + segment.payload.length)) ∨
        c.Probes segment) ∧
      (segment.syn = false → 0 < c.receiver.window ∨ segment.payload = [] →
        after.active = false → c.Warrants isn segment) ∧
      (after.active = true → after = { c with idle := 0 } ∧ after.inbound.failed = false ∧
        after.outbound.failed = false)) ∧
    (c.receiver.reassembler.nextIndex + c.receiver.reassembler.capacity +
        segment.payload.length + 2 * SeqNum.cycle ≤ Count.bound →
      ∃ after, (c.segmentReceived segment).result = .ok after) := by
  have intact := reachable.intact
  refine ⟨fun after h => ?_, segmentReceived_rst_returns intact active known rst⟩
  obtain ⟨-, outcome⟩ := segmentReceived_rst active known rst h
  have ended_iff : after.active = false ↔
      c.receiver.InWindow isn segment ∨ c.Probes segment := by
    rcases outcome with ⟨counts, rfl⟩ | ⟨passes, rfl⟩
    · simp [kill, counts]
    · simp [active, passes]
  refine ⟨?_, ?_, ?_⟩
  · rw [ended_iff, Receiver.inWindow_iff, or_assoc]
  · intro plain width ended
    rcases ended_iff.mp ended with inside | probes
    · rcases (Receiver.inWindow_iff _ _ _).mp inside with
        ⟨syn, -⟩ | ⟨-, index, hunwrap, meets | ⟨closed, around⟩⟩
      · simp [plain] at syn
      · exact Or.inl ⟨_, hunwrap, meets⟩
      · rcases width with opened | empty
        · omega
        · rw [empty, List.length_nil] at around
          omega
    · exact Or.inr probes
  · intro stays
    rcases outcome with ⟨-, rfl⟩ | ⟨-, rfl⟩
    · simp [kill] at stays
    · exact ⟨rfl, intact.alive active⟩

structure Glance where
  active : Bool
  isn : Option SeqNum
  ackno : Option SeqNum
  ended : Bool
  next : Nat
  cells : Nat
  width : Nat
deriving DecidableEq

def glance (c : Connection) : Glance :=
  ⟨c.active, c.receiver.isn, c.receiver.ackno, c.inbound.ended,
    c.receiver.reassembler.nextIndex, c.receiver.reassembler.capacity, c.receiver.window⟩

theorem glance_of_dial {capacity next cells width : Nat} {calls : List Call}
    {ackno : Option SeqNum} {ended : Bool}
    (seen : glance <$> dial capacity calls =
      .ok ⟨true, some ⟨5000⟩, ackno, ended, next, cells, width⟩) :
    ∃ c, dial capacity calls = .ok c ∧ c.active = true ∧ c.receiver.isn = some ⟨5000⟩ ∧
      c.receiver.ackno = ackno ∧ c.inbound.ended = ended ∧
      c.receiver.reassembler.nextIndex = next ∧ c.receiver.reassembler.capacity = cells ∧
      c.receiver.window = width := by
  obtain ⟨c, dialed, look⟩ := map_eq_ok.mp seen
  simp only [glance, Glance.mk.injEq] at look
  exact ⟨c, dialed, look⟩

theorem ended_by_next_rst : ∃ c after, Reachable ByteStream.Call.spares c ∧ c.active = true ∧
    c.receiver.isn = some ⟨5000⟩ ∧
    (c.segmentReceived { rst := true, seqno := ⟨5001⟩ }).result = .ok after ∧
    after.active = false := by
  have seen : glance <$> dial 10 [] =
      .ok ⟨true, some ⟨5000⟩, some ⟨5001⟩, false, 0, 10, 10⟩ := by decide +kernel
  obtain ⟨c, dialed, active, known, -, -, next, cells, -⟩ := glance_of_dial seen
  have reachable : Reachable ByteStream.Call.spares c :=
    reachable_dial (by decide) (by decide) (by simp) dialed
  have rst : ({ rst := true, seqno := ⟨5001⟩ } : Segment).rst = true := rfl
  have verdict := ended_by_rst_iff reachable active known rst
  obtain ⟨after, h⟩ := verdict.2 (by rw [next, cells]; decide)
  have place : SeqNum.unwrap ⟨5001⟩ ⟨5000⟩ c.receiver.reassembler.nextIndex = .ok (0 + 1) := by
    rw [next]
    decide +kernel
  have meets : c.receiver.Meets (0 + 1) 0 := Or.inl (by rw [next])
  exact ⟨c, after, reachable, active, known, h,
    ((verdict.1 after h).1).mpr (Or.inr (Or.inl ⟨rfl, 0, place, Or.inl meets⟩))⟩

/-- Both kinds occur: an RST with a SYN and a number far away ends a fresh connection, and so does one
whose bytes lie around an empty window. -/
theorem ended_by_unwarranted_rst :
    (∃ c segment after, Reachable ByteStream.Call.spares c ∧ c.active = true ∧
      c.receiver.isn = some ⟨5000⟩ ∧ segment.rst = true ∧ segment.syn = true ∧
      (c.segmentReceived segment).result = .ok after ∧ after.active = false ∧
      ¬c.Warrants ⟨5000⟩ segment) ∧
    (∃ c segment after, Reachable ByteStream.Call.spares c ∧ c.active = true ∧
      c.receiver.isn = some ⟨5000⟩ ∧ segment.rst = true ∧ segment.syn = false ∧
      (c.segmentReceived segment).result = .ok after ∧ after.active = false ∧
      ¬c.Warrants ⟨5000⟩ segment) := by
  constructor
  · have seen : glance <$> dial 10 [] =
        .ok ⟨true, some ⟨5000⟩, some ⟨5001⟩, false, 0, 10, 10⟩ := by decide +kernel
    obtain ⟨c, dialed, active, known, -, -, next, cells, width⟩ := glance_of_dial seen
    have reachable : Reachable ByteStream.Call.spares c :=
      reachable_dial (by decide) (by decide) (by simp) dialed
    have place : SeqNum.unwrap ⟨77⟩ ⟨5000⟩ c.receiver.reassembler.nextIndex =
        .ok 4294962373 := by
      rw [next]
      decide +kernel
    have inside : c.receiver.InWindow ⟨5000⟩ { rst := true, syn := true, seqno := ⟨77⟩ } :=
      Or.inl ⟨rfl, Or.inl next.symm⟩
    have rst : ({ rst := true, syn := true, seqno := ⟨77⟩ } : Segment).rst = true := rfl
    obtain ⟨after, h⟩ := segmentReceived_rst_returns reachable.intact active known rst
      (by rw [next, cells]; decide)
    refine ⟨c, _, after, reachable, active, known, rfl, rfl, h,
      ended_of_inWindow active known rfl h inside, ?_⟩
    rintro (⟨absolute, hunwrap, meets⟩ | ⟨empty, -⟩)
    · have found : absolute = 4294962373 := Except.ok.inj (hunwrap.symm.trans place)
      rcases meets with here | ⟨low, high⟩
      · omega
      · omega
    · cases empty
  · have seen : glance <$> dial 4 [.segment
        { ack := true, seqno := ⟨5001⟩, ackno := ⟨1001⟩, payload := [97, 98, 99, 100] }] =
        .ok ⟨true, some ⟨5000⟩, some ⟨5005⟩, false, 4, 4, 0⟩ := by decide +kernel
    obtain ⟨c, dialed, active, known, -, -, next, cells, width⟩ := glance_of_dial seen
    have reachable : Reachable ByteStream.Call.spares c :=
      reachable_dial (by decide) (by decide) (by simp [Call.within]) dialed
    have place : SeqNum.unwrap ⟨5004⟩ ⟨5000⟩ c.receiver.reassembler.nextIndex = .ok (3 + 1) := by
      rw [next]
      decide +kernel
    have overlaps : c.receiver.Overlaps 3 2 := ⟨by omega, by omega⟩
    have inside : c.receiver.InWindow ⟨5000⟩
        { rst := true, seqno := ⟨5004⟩, payload := [122, 122] } :=
      Or.inr ⟨rfl, 3, place, overlaps⟩
    have rst : ({ rst := true, seqno := ⟨5004⟩, payload := [122, 122] } : Segment).rst = true := rfl
    obtain ⟨after, h⟩ := segmentReceived_rst_returns reachable.intact active known rst
      (by rw [next, cells]; decide)
    refine ⟨c, _, after, reachable, active, known, rfl, rfl, h,
      ended_of_inWindow active known rfl h inside, ?_⟩
    rintro (⟨absolute, -, position, -, -, low, high⟩ | ⟨empty, -⟩)
    · omega
    · cases empty

/-- Which RSTs with exactly the next number expected end a connection: every one, unless the peer's FIN
has been taken in and the window has at most one byte left. The connection is then in its reset state and
has queued nothing; in the other case it goes on as if nothing had come. -/
theorem reset_by_expected_rst_iff (reachable : Reachable ByteStream.Call.spares c)
    (active : c.active = true) (known : c.receiver.isn = some isn) (rst : segment.rst = true)
    (syn : segment.syn = false) (payload : segment.payload = [])
    (expected : c.receiver.ackno = some segment.seqno) :
    (∀ after, (c.segmentReceived segment).result = .ok after →
      (c.inbound.ended = false ∨ 2 ≤ c.receiver.window →
        after.summary.named = some .reset ∧ after.cause = some .byPeer ∧
          after.inbound.failed = true ∧ after.outbound.failed = true ∧
          after.queued = c.queued ∧ after.sender.queued = c.sender.queued) ∧
      (c.inbound.ended = true ∧ c.receiver.window ≤ 1 → after = { c with idle := 0 })) ∧
    (c.receiver.reassembler.nextIndex + c.receiver.reassembler.capacity + 2 * SeqNum.cycle ≤
        Count.bound → ∃ after, (c.segmentReceived segment).result = .ok after) := by
  have length_zero : segment.payload.length = 0 := by rw [payload, List.length_nil]
  have seqno : segment.seqno = SeqNum.wrap c.receiver.ackPosition isn := by
    rw [Receiver.ackno_of_known known] at expected
    exact (Option.some.inj expected).symm
  have ended_le := c.inbound.ended.toNat_le
  -- The number expected counts the FIN, and the window does not: behind the FIN the two are one apart.
  have position : c.receiver.ackPosition =
      c.receiver.reassembler.nextIndex + c.inbound.ended.toNat + 1 := Nat.add_right_comm _ _ _
  constructor
  · intro after h
    obtain ⟨⟨inside, hinside⟩, outcome⟩ := segmentReceived_rst active known rst h
    obtain ⟨absolute, hunwrap⟩ := Receiver.unwrap_of_inWindow known syn hinside
    have found : absolute = c.receiver.ackPosition := by
      rw [seqno] at hunwrap
      refine SeqNum.unwrap_wrap ?_ hunwrap
      rw [SeqNum.cycle_eq, position]
      unfold SeqNum.gap
      omega
    have inWindow_iff : c.receiver.InWindow isn segment ↔
        c.receiver.Overlaps (c.receiver.reassembler.nextIndex + c.inbound.ended.toNat) 0 := by
      unfold Receiver.InWindow
      rw [syn, hunwrap, found, position, length_zero]
      simp
    have probes_not : ¬c.Probes segment := by
      rintro ⟨-, ackno, hackno, before⟩
      rw [expected, Option.some.injEq] at hackno
      exact SeqNum.ne_before ackno (hackno ▸ before)
    have overlaps_iff : c.receiver.Overlaps
          (c.receiver.reassembler.nextIndex + c.inbound.ended.toNat) 0 ↔
        c.inbound.ended = false ∨ 2 ≤ c.receiver.window := by
      unfold Receiver.Overlaps
      cases c.inbound.ended <;> simp
      omega
    have counts_iff : c.receiver.InWindow isn segment ∨ c.Probes segment ↔
        c.inbound.ended = false ∨ 2 ≤ c.receiver.window := by
      rw [inWindow_iff, overlaps_iff, or_iff_left probes_not]
    rw [counts_iff] at outcome
    rcases outcome with ⟨counts, rfl⟩ | ⟨passes, rfl⟩
    · refine ⟨fun _ => ⟨named_kill _ _, rfl, rfl, rfl, rfl, rfl⟩, ?_⟩
      rintro ⟨ended, narrow⟩
      rcases counts with going | wide
      · simp [ended] at going
      · omega
    · exact ⟨fun counts => absurd counts passes, fun _ => rfl⟩
  · intro short
    exact segmentReceived_rst_returns reachable.intact active known rst (by omega)

theorem reset_by_expected_rst_after_fin : ∃ c after, Reachable ByteStream.Call.spares c ∧
    c.active = true ∧ c.receiver.isn = some ⟨5000⟩ ∧ c.receiver.ackno = some ⟨5004⟩ ∧
    c.inbound.ended = true ∧
    (c.segmentReceived { rst := true, seqno := ⟨5004⟩ }).result = .ok after ∧
    after.summary.named = some .reset ∧ after.cause = some .byPeer := by
  have seen : glance <$> dial 4 [.segment
      { ack := true, fin := true, seqno := ⟨5001⟩, ackno := ⟨1001⟩, payload := [97, 98] }] =
      .ok ⟨true, some ⟨5000⟩, some ⟨5004⟩, true, 2, 4, 2⟩ := by decide +kernel
  obtain ⟨c, dialed, active, known, expected, ended, next, cells, width⟩ := glance_of_dial seen
  have reachable : Reachable ByteStream.Call.spares c :=
    reachable_dial (by decide) (by decide) (by simp [Call.within]) dialed
  have rst : ({ rst := true, seqno := ⟨5004⟩ } : Segment).rst = true := rfl
  have verdict := reset_by_expected_rst_iff reachable active known rst rfl rfl expected
  obtain ⟨after, h⟩ := verdict.2 (by rw [next, cells]; decide)
  obtain ⟨named, cause, -⟩ := (verdict.1 after h).1 (Or.inr (by omega))
  exact ⟨c, after, reachable, active, known, expected, ended, h, named, cause⟩

/-- With a full buffer behind the FIN it does not. -/
theorem expected_rst_passed_over : ∃ c after, Reachable ByteStream.Call.spares c ∧
    c.active = true ∧ c.receiver.isn = some ⟨5000⟩ ∧ c.receiver.ackno = some ⟨5006⟩ ∧
    (c.segmentReceived { rst := true, seqno := ⟨5006⟩ }).result = .ok after ∧
    after.active = true ∧ after.summary.named ≠ some .reset := by
  have seen : glance <$> dial 4 [.segment
      { ack := true, fin := true, seqno := ⟨5001⟩, ackno := ⟨1001⟩, payload := [97, 98, 99, 100] }] =
      .ok ⟨true, some ⟨5000⟩, some ⟨5006⟩, true, 4, 4, 0⟩ := by decide +kernel
  obtain ⟨c, dialed, active, known, expected, -, next, cells, width⟩ := glance_of_dial seen
  have reachable : Reachable ByteStream.Call.spares c :=
    reachable_dial (by decide) (by decide) (by simp [Call.within]) dialed
  have rst : ({ rst := true, seqno := ⟨5006⟩ } : Segment).rst = true := rfl
  obtain ⟨after, h⟩ := segmentReceived_rst_returns reachable.intact active known rst
    (by rw [next, cells]; decide)
  have place : SeqNum.unwrap ⟨5006⟩ ⟨5000⟩ c.receiver.reassembler.nextIndex = .ok 6 := by
    rw [next]
    decide +kernel
  have outside : ¬(c.receiver.InWindow ⟨5000⟩ { rst := true, seqno := ⟨5006⟩ } ∨
      c.Probes { rst := true, seqno := ⟨5006⟩ }) := by
    rintro ((⟨syn, -⟩ | ⟨-, index, hunwrap, here | inside⟩) | ⟨-, ackno, hackno, before⟩)
    · cases syn
    · have found : 6 = index + 1 := Except.ok.inj (place.symm.trans hunwrap)
      omega
    · have found : 6 = index + 1 := Except.ok.inj (place.symm.trans hunwrap)
      omega
    · rw [expected, Option.some.injEq] at hackno
      exact SeqNum.ne_before ⟨5006⟩ (hackno ▸ before)
  obtain ⟨-, ⟨counts, -⟩ | ⟨-, rfl⟩⟩ := segmentReceived_rst active known rfl h
  · exact absurd counts outside
  · exact ⟨c, _, reachable, active, known, expected, h, active, named_of_active _ active⟩

end TcpStack.Connection

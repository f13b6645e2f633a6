import TcpStack.Proofs.Connection.Reachable
import TcpStack.Proofs.Receiver.Advance

/-! How much a connection has left to say if nothing is written and no time passes. What its sender has not
sent yet weighs three, a segment that takes numbers two, and one that takes none weighs one. So whatever a
segment makes a connection say weighs less than the segment and what is no longer unsent, unless the
segment is one that is answered though it takes no number. -/

namespace TcpStack

open Outcome

namespace Segment

/-- A segment that takes numbers may be answered, by one that takes none. -/
def weight (segment : Segment) : Nat := if segment.sequenceLength = 0 then 1 else 2

def weigh : List Segment → Nat
  | [] => 0
  | segment :: rest => segment.weight + weigh rest

theorem weight_pos (segment : Segment) : 0 < segment.weight := by
  unfold weight
  split <;> decide

theorem weight_le (segment : Segment) : segment.weight ≤ 2 := by
  unfold weight
  split <;> decide

theorem weight_of_some {segment : Segment} (some : 0 < segment.sequenceLength) :
    segment.weight = 2 := if_neg (Nat.ne_of_gt some)

theorem weigh_append (segments more : List Segment) :
    weigh (segments ++ more) = weigh segments + weigh more := by
  induction segments with
  | nil => exact (Nat.zero_add _).symm
  | cons segment rest ih => rw [List.cons_append, weigh, weigh, ih, Nat.add_assoc]

theorem length_le_weigh (segments : List Segment) : segments.length ≤ weigh segments := by
  induction segments with
  | nil => exact Nat.le_refl 0
  | cons segment rest ih =>
    have positive := segment.weight_pos
    rw [List.length_cons, weigh]
    omega

theorem weigh_map_unstamped (segments : List Segment) :
    weigh (segments.map unstamped) = weigh segments := by
  induction segments with
  | nil => rfl
  | cons segment rest ih =>
    rw [List.map_cons, weigh, weigh, ih]
    rfl

end Segment

open Segment

namespace Sender

def unsent (s : Sender) : Nat :=
  (if s.nextSeqno = 0 then 1 else 0) + s.stream.size + (!s.finSent).toNat

/-- What is unsent weighs more than the segment that it becomes. -/
def load (s : Sender) : Nat := 3 * s.unsent + weigh s.queued

variable {s after : Sender} {segment : Segment} {segments : List Segment}

theorem load_sendEmpty (s : Sender) : s.sendEmpty.load = s.load + 1 := by
  unfold load sendEmpty
  rw [weigh_append, Nat.add_assoc]
  rfl

theorem Launch.unsent_lt (launch : Launch s segment after) (sound : s.stream.Sound) :
    after.unsent < s.unsent := by
  unfold unsent
  cases launch with
  | opens unopened => simp [afterSend, unopened, Segment.sequenceLength]
  | @cuts stream payload fin opened going _ hcut some =>
    obtain ⟨payload_eq, drops, -⟩ := cut_spec sound hcut
    have length_eq : payload.length = min s.budget s.stream.size := by
      rw [payload_eq, List.length_take, ByteStream.length_toList]
    have size_eq := drops.size_eq
    have opened' : (afterSend { s with stream, finSent := fin } { payload, fin }).nextSeqno ≠ 0 :=
      Nat.ne_of_gt (Nat.add_pos_left opened _)
    rw [if_neg opened', if_neg (Nat.ne_of_gt opened), going]
    simp only [afterSend, Bool.not_false, Bool.toNat_true]
    rcases some with some | rfl
    · have length_pos := List.length_pos_iff.mpr some
      have flag := (!fin).toNat_le
      omega
    · simp only [Bool.not_true, Bool.toNat_false]
      omega

theorem Launch.load_lt (launch : Launch s segment after) (sound : s.stream.Sound) :
    after.load < s.load := by
  have unsent_lt := launch.unsent_lt sound
  have weight_le := segment.weight_le
  unfold load
  rw [launch.queued_eq, weigh_append, weigh, weigh]
  omega

theorem Launches.load_le (launches : Launches s segments after) (sound : s.stream.Sound) :
    after.load ≤ s.load ∧ after.stream.Sound := by
  induction launches with
  | nothing => exact ⟨Nat.le_refl _, sound⟩
  | next launch _ ih =>
    have step : Step none _ _ := launch.step
    obtain ⟨le, sound'⟩ := ih (step.stream_sound sound).1
    exact ⟨Nat.le_trans le (Nat.le_of_lt (launch.load_lt sound)), sound'⟩

theorem Heeds.load_eq {ackno : SeqNum} {window : UInt16} (heeds : Heeds s ackno window after) :
    after.load = s.load ∧ after.stream = s.stream := by
  cases heeds with
  | again => exact ⟨rfl, rfl⟩
  | moves _ _ _ hadvance =>
    obtain ⟨_, _, _, _, _, rfl⟩ := advance_eq_ok hadvance
    exact ⟨rfl, rfl⟩

theorem fillWindow_load_le (sound : s.stream.Sound) (h : s.fillWindow.result = .ok after) :
    after.load ≤ s.load := by
  obtain ⟨_, launches⟩ := fillWindow_launches h
  exact (launches.load_le sound).1

theorem ackReceived_load_le {ackno : SeqNum} {window : UInt16} {legal : Bool} (sound : s.stream.Sound)
    (h : (s.ackReceived ackno window).result = .ok (after, legal)) :
    after.load ≤ s.load ∧ after.stream.Sound := by
  rcases ackReceived_launches h with rfl | ⟨heard, _, heeds, launches⟩
  · exact ⟨Nat.le_refl _, sound⟩
  · obtain ⟨load_eq, stream_eq⟩ := heeds.load_eq
    exact load_eq ▸ launches.load_le (stream_eq ▸ sound)

end Sender

namespace Connection

def load (c : Connection) : Nat := c.sender.load + weigh c.queued

variable {c after : Connection} {segment : Segment} {asked : List Sender.Call}

theorem length_queued_le_load (c : Connection) : c.queued.length ≤ c.load :=
  Nat.le_trans (length_le_weigh c.queued) (Nat.le_add_left _ _)

theorem Flushes.load_eq (flushes : Flushes c after) : after.load = c.load := by
  cases flushes with
  | @moves stamped stamps =>
    have weight_eq : weigh stamped = weigh c.sender.queued := by
      rw [← weigh_map_unstamped, Receiver.map_unstamped_of_stamps stamps, weigh_map_unstamped]
    simp only [load, Sender.load, weigh_append, weight_eq, weigh, Sender.unsent]
    omega

theorem Flushes.load_le {sender : Sender} (flushes : Flushes { c with sender } after) (more : Nat)
    (le : sender.load ≤ c.sender.load + more) : after.load ≤ c.load + more := by
  rw [flushes.load_eq, load, load, Nat.add_right_comm]
  exact Nat.add_le_add_right le _

theorem Connects.load_le (connects : Connects c asked after) (sound : c.outbound.Sound) :
    after.load ≤ c.load := by
  cases connects with
  | settled => exact Nat.le_refl _
  | opens _ _ fills flushes => exact flushes.load_le 0 (Sender.fillWindow_load_le sound fills)

theorem Hearing.load_le {s sender : Sender} (hears : Hearing s segment asked sender) (sound : s.stream.Sound) :
    sender.load ≤ s.load ∧ sender.stream.Sound := by
  cases hears with
  | nothing => exact ⟨Nat.le_refl _, sound⟩
  | acknowledgment _ hears => exact Sender.ackReceived_load_le sound hears

theorem Acknowledges.load_le (acknowledges : Acknowledges c asked after) : after.load ≤ c.load + 1 := by
  cases acknowledges with
  | ended => exact Nat.le_succ _
  | answers _ _ flushes => exact flushes.load_le 1 (Nat.le_of_eq c.sender.load_sendEmpty)
  | sends _ _ flushes => exact Nat.le_succ_of_le (Nat.le_of_eq flushes.load_eq)

theorem Responds.load_lt (responds : Responds c segment asked after) (sound : c.outbound.Sound) :
    after.load < c.load + segment.weight := by
  have weight_pos := segment.weight_pos
  cases responds with
  | ended => omega
  | @answers sender _ _ fills takes _ flushes =>
    have filled := Sender.fillWindow_load_le sound fills
    have answered := flushes.load_le (c := c) 1 (sender.load_sendEmpty ▸ Nat.succ_le_succ filled)
    have two := weight_of_some takes
    omega
  | sends _ fills _ flushes =>
    have filled := flushes.load_le (c := c) 0 (Sender.fillWindow_load_le sound fills)
    omega

theorem ReceivesSynchronized.load_lt (receives : ReceivesSynchronized c segment asked after)
    (sound : c.outbound.Sound) (legal : c.acceptsAck segment = .ok true)
    (calm : segment.sequenceLength = 0 → segment.rst = false → c.isProbe segment = .ok false) :
    after.load < c.load + segment.weight := by
  have weight_pos := segment.weight_pos
  cases receives with
  | ignores | ends => exact Nat.lt_add_of_pos_right weight_pos
  | answers rst _ probes accepts reason flushes =>
    -- only a segment that takes numbers is left to be answered in this way
    have some : 0 < segment.sequenceLength := by
      by_contra empty
      rcases reason with rfl | rfl
      · cases legal.symm.trans accepts
      · cases (calm (Nat.eq_zero_of_not_pos empty) rst).symm.trans probes
    have answered := flushes.load_le (c := c) 1 (Nat.le_of_eq c.sender.load_sendEmpty)
    have two := weight_of_some some
    omega
  | @takes _ receiver _ sender _ _ _ _ _ _ _ hears _ responds =>
    obtain ⟨load_le, sound'⟩ := hears.load_le sound
    have heard : load (checked { c with receiver, sender }) ≤ c.load := Nat.add_le_add_right load_le _
    exact Nat.lt_of_lt_of_le (responds.load_lt sound') (Nat.add_le_add_right heard _)

theorem ReceivesSynSent.load_lt (receives : ReceivesSynSent c segment asked after) (sound : c.outbound.Sound) :
    after.load < c.load + segment.weight := by
  have weight_pos := segment.weight_pos
  cases receives with
  | ignoresRst | ends | ignores => exact Nat.lt_add_of_pos_right weight_pos
  | @takes receiver _ sender _ _ _ _ syn _ _ hears acknowledges =>
    have some : 0 < segment.sequenceLength := by
      rw [Segment.sequenceLength, syn, Bool.toNat_true]
      omega
    have heard : load (checked { c with receiver, sender }) ≤ c.load :=
      Nat.add_le_add_right (hears.load_le sound).1 _
    have acknowledged := acknowledges.load_le
    have two := weight_of_some some
    omega

theorem ReceivesListening.load_lt (receives : ReceivesListening c segment asked after)
    (sound : c.outbound.Sound) : after.load < c.load + segment.weight := by
  cases receives with
  | ignores => exact Nat.lt_add_of_pos_right segment.weight_pos
  | @takes receiver _ _ _ _ _ _ _ connects =>
    have opened : after.load ≤ load (checked { c with receiver }) := connects.load_le sound
    exact Nat.lt_of_le_of_lt opened (Nat.lt_add_of_pos_right segment.weight_pos)

theorem segmentReceived_load_lt (sound : c.outbound.Sound) (legal : c.acceptsAck segment = .ok true)
    (calm : segment.sequenceLength = 0 → segment.rst = false → c.isProbe segment = .ok false)
    (h : (c.segmentReceived segment).result = .ok after) :
    after.load < c.load + segment.weight := by
  obtain ⟨_, receives⟩ := segmentReceived_eq_ok_iff.mp h
  cases receives with
  | sleeps => exact Nat.lt_add_of_pos_right segment.weight_pos
  | listening _ _ _ receives => exact receives.load_lt sound
  | synSent _ _ _ receives => exact receives.load_lt sound
  | synchronized _ _ receives => exact receives.load_lt sound legal calm

end Connection
end TcpStack

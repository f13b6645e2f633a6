import TcpStack.Proofs.Reassembler.Assembly
import TcpStack.Proofs.Segment.Faithful
import TcpStack.Proofs.SeqNum.Nearest
import TcpStack.Reassembler.Call

/-! What a receiver does with a segment, and that segments which tell the truth about the peer's stream
bring nothing but that stream, as long as it is so short that no number of it can be mistaken for
another. -/

namespace TcpStack.Receiver

open Outcome

/-- Why a segment is refused: it comes before the SYN or is a second one, it brings something behind the
end, it has the number of the SYN, or it has no part in the window. -/
inductive Refuses (r : Receiver) (segment : Segment) : Prop
  | early (unknown : r.isn = none) (syn : segment.syn = false)
  | again (known : r.isn ≠ none) (syn : segment.syn = true)
  | ended (known : r.isn ≠ none) (finished : r.reassembler.finished = true)
      (some : 0 < segment.sequenceLength)
  | before {isn : SeqNum} (known : r.isn = some isn)
      (place : segment.seqno.unwrap isn r.reassembler.nextIndex = .ok 0)
  | outside {isn : SeqNum} {index : Nat} (known : r.isn = some isn)
      (place : segment.seqno.unwrap isn r.reassembler.nextIndex = .ok (index + 1))
      (apart : r.overlapsWindow index segment.payload.length = .ok false)

/-- The four ways to deal with a segment: it is refused, or gives the peer's number to a stream that has
ended, or opens the stream, or goes on with it. -/
inductive Takes (r : Receiver) (segment : Segment) : Receiver → Bool → Prop
  | refused (reason : r.Refuses segment) : Takes r segment r false
  | late (unknown : r.isn = none) (syn : segment.syn = true)
      (finished : r.reassembler.finished = true) :
      Takes r segment { r with isn := some segment.seqno } false
  | opens {reassembler : Reassembler} (unknown : r.isn = none) (syn : segment.syn = true)
      (push : r.reassembler.push segment.payload 0 segment.fin = .ok reassembler) :
      Takes r segment { reassembler, isn := some segment.seqno } true
  | goesOn {reassembler : Reassembler} {isn : SeqNum} {index : Nat} (known : r.isn = some isn)
      (syn : segment.syn = false)
      (place : segment.seqno.unwrap isn r.reassembler.nextIndex = .ok (index + 1))
      (open' : r.reassembler.finished = true → segment.sequenceLength = 0)
      (overlaps : r.overlapsWindow index segment.payload.length = .ok true)
      (push : r.reassembler.push segment.payload index segment.fin = .ok reassembler) :
      Takes r segment { r with reassembler } true

theorem streamIndex_of_syn {r : Receiver} {isn : SeqNum} {segment : Segment}
    (syn : segment.syn = true) : r.streamIndex isn segment = .ok (some 0) := by
  unfold streamIndex
  rw [if_pos syn]
  rfl

theorem streamIndex_eq_ok {r : Receiver} {isn : SeqNum} {segment : Segment} {index : Option Nat}
    (syn : segment.syn = false) (h : r.streamIndex isn segment = .ok index) :
    ∃ absolute, segment.seqno.unwrap isn r.reassembler.nextIndex = .ok absolute ∧
      (absolute = 0 ∧ index = none ∨ ∃ i, absolute = i + 1 ∧ index = some i) := by
  unfold streamIndex at h
  rw [if_neg (by simp [syn]), bind_eq_ok] at h
  obtain ⟨absolute, hunwrap, h⟩ := h
  refine ⟨absolute, hunwrap, ?_⟩
  cases absolute with
  | zero => exact Or.inl ⟨rfl, (pure_eq_ok.mp h).symm⟩
  | succ i => exact Or.inr ⟨i, rfl, (pure_eq_ok.mp h).symm⟩

theorem synchronize_eq_ok {r after : Receiver} {segment : Segment} {number : Option SeqNum}
    (h : (r.synchronize segment).result = .ok (after, number)) :
    (after = r ∧ number = none ∧ r.Refuses segment) ∨
      (segment.syn = false ∧ after = r ∧ ∃ isn, r.isn = some isn ∧ number = some isn) ∨
      (segment.syn = true ∧ r.isn = none ∧ after = { r with isn := some segment.seqno } ∧
        number = some segment.seqno) := by
  unfold synchronize at h
  cases hisn : r.isn with
  | none =>
    cases hsyn : segment.syn with
    | false =>
      simp only [hisn, hsyn, Run.result_pure, Except.ok.injEq, Prod.mk.injEq] at h
      exact Or.inl ⟨h.1.symm, h.2.symm, .early hisn hsyn⟩
    | true =>
      simp [hisn, hsyn] at h
      grind
  | some isn =>
    cases hsyn : segment.syn with
    | false =>
      simp [hisn, hsyn] at h
      grind
    | true =>
      simp only [hisn, hsyn, Run.result_pure, Except.ok.injEq, Prod.mk.injEq] at h
      exact Or.inl ⟨h.1.symm, h.2.symm, .again (by simp [hisn]) hsyn⟩

theorem segmentReceived_takes {r after : Receiver} {segment : Segment} {accepted : Bool}
    (h : (r.segmentReceived segment).result = .ok (after, accepted)) :
    Takes r segment after accepted := by
  unfold segmentReceived at h
  simp only [Run.result_bind, bind_eq_ok] at h
  obtain ⟨⟨r', number⟩, hsync, h⟩ := h
  rcases synchronize_eq_ok hsync with ⟨rfl, rfl, reason⟩ | ⟨syn, rfl, isn, known, rfl⟩ |
    ⟨syn, unknown, rfl, rfl⟩
  · simp only [Run.result_pure] at h
    cases h
    exact .refused reason
  · simp only at h
    by_cases late : (r'.reassembler.finished && decide (0 < segment.sequenceLength)) = true
    · rw [if_pos late, Run.result_pure] at h
      cases h
      rw [Bool.and_eq_true, decide_eq_true_eq] at late
      exact .refused (.ended (by simp [known]) late.1 late.2)
    rw [if_neg late] at h
    simp only [Run.result_bind, Run.result_lift, bind_eq_ok] at h
    obtain ⟨index, hindex, h⟩ := h
    obtain ⟨absolute, place, ⟨rfl, rfl⟩ | ⟨i, rfl, rfl⟩⟩ := streamIndex_eq_ok syn hindex
    · cases h
      exact .refused (.before known place)
    simp only [syn, Bool.false_eq_true, if_false, Run.result_bind, Run.result_lift,
      bind_eq_ok] at h
    obtain ⟨acceptable, hoverlaps, h⟩ := h
    cases acceptable with
    | false =>
      cases h
      exact .refused (.outside known place hoverlaps)
    | true =>
      simp only [Bool.not_true, Bool.false_eq_true, if_false, Run.result_bind, Run.result_lift,
        Run.result_pure, bind_eq_ok] at h
      obtain ⟨reassembler, hpush, h⟩ := h
      cases h
      refine .goesOn known syn place (fun finished => ?_) hoverlaps hpush
      simpa [finished] using late
  · simp only at h
    by_cases late : (r.reassembler.finished && decide (0 < segment.sequenceLength)) = true
    · rw [if_pos late, Run.result_pure] at h
      cases h
      exact .late unknown syn (Bool.and_eq_true_iff.mp late).1
    rw [if_neg late] at h
    simp only [streamIndex_of_syn syn, syn, Run.result_bind, Run.result_lift, Run.result_pure,
      bind_eq_ok, if_true, Bool.not_true, Bool.false_eq_true, if_false, Except.ok.injEq,
      exists_eq_left', pure_bind] at h
    obtain ⟨reassembler, hpush, h⟩ := h
    cases h
    exact .opens unknown syn hpush

theorem Takes.isn_stays {r after : Receiver} {segment : Segment} {accepted : Bool} {isn : SeqNum}
    (takes : Takes r segment after accepted) (known : r.isn = some isn) : after.isn = some isn := by
  cases takes with
  | refused => exact known
  | late unknown => simp [unknown] at known
  | opens unknown => simp [unknown] at known
  | goesOn => exact known

theorem ended_of_finReceived {r : Receiver} (state : r.state = .finReceived) :
    r.stream.ended = true := by
  unfold Receiver.state at state
  split at state
  · cases state
  split at state
  · cases state
  split at state
  · assumption
  · cases state

theorem state_of_known {r : Receiver} (known : r.isn ≠ none) (spared : r.stream.failed = false) :
    r.state = if r.stream.ended then .finReceived else .synReceived := by
  obtain ⟨isn, isn_eq⟩ := Option.ne_none_iff_exists'.mp known
  unfold state
  rw [spared, isn_eq]
  rfl

theorem state_ne_listen {r : Receiver} (known : r.isn ≠ none) : r.state ≠ .listen := by
  obtain ⟨isn, isn_eq⟩ := Option.ne_none_iff_exists'.mp known
  unfold state
  rw [isn_eq]
  cases r.stream.failed <;> cases r.stream.ended <;> simp

structure Follows (whole : Bytes) (ended : Bool) (peer : SeqNum) (r : Receiver) : Prop where
  reassembler : r.reassembler.Follows whole ended
  isn : ∀ isn, r.isn = some isn → isn = peer

theorem Takes.spec {r after : Receiver} {segment : Segment} {accepted : Bool}
    (takes : Takes r segment after accepted) (sound : r.stream.Sound) :
    ∃ delivered, r.reassembler.Extends delivered after.reassembler ∧
      ∀ (whole : Bytes) (ended : Bool) (peer : SeqNum), whole.length + 2 < SeqNum.half →
        segment.Faithful whole ended peer → Follows whole ended peer r →
        whole.HasAt r.reassembler.nextIndex delivered ∧ Follows whole ended peer after := by
  have same : r.reassembler.Extends [] r.reassembler := Reassembler.Extends.refl sound
  have here (whole : Bytes) : whole.HasAt r.reassembler.nextIndex [] := Bytes.hasAt_nil whole _
  cases takes with
  | refused => exact ⟨[], same, fun whole ended peer _ _ follows => ⟨here whole, follows⟩⟩
  | late unknown syn =>
    refine ⟨[], same, fun whole ended peer _ faithful follows =>
      ⟨here whole, follows.reassembler, fun isn h => ?_⟩⟩
    cases faithful with
    | opening _ seqno => exact (Option.some.inj h).symm.trans seqno
    | bare _ _ syn' => simp [syn] at syn'
    | carries _ _ syn' => simp [syn] at syn'
  | opens unknown syn push =>
    obtain ⟨delivered, goes, pieces⟩ := Reassembler.push_spec sound push
    refine ⟨delivered, goes, fun whole ended peer _ faithful follows => ?_⟩
    cases faithful with
    | opening _ seqno payload fin =>
      obtain ⟨next, kept⟩ := pieces whole ended follows.reassembler
        (payload ▸ Bytes.hasAt_nil whole 0) (by simp [fin])
      exact ⟨next, kept, fun isn h => (Option.some.inj h).symm.trans seqno⟩
    | bare _ _ syn' => simp [syn] at syn'
    | carries _ _ syn' => simp [syn] at syn'
  | @goesOn reassembler isn index known syn place open' overlaps push =>
    obtain ⟨delivered, goes, pieces⟩ := Reassembler.push_spec sound push
    refine ⟨delivered, goes, fun whole ended peer short faithful follows => ?_⟩
    have next_le := follows.reassembler.next_le
    rw [follows.isn isn known] at place
    -- the only position of the stream that can be meant, as all of them are near each other
    have found {position : Nat} (inside : position ≤ whole.length + 2)
        (seqno : segment.seqno = SeqNum.wrap position peer) : index + 1 = position := by
      rw [seqno] at place
      exact SeqNum.unwrap_wrap_of_lt_half (by omega) (by omega) place
    have piece : whole.HasAt index segment.payload ∧ (segment.fin = true →
        ended = true ∧ index + segment.payload.length = whole.length) := by
      cases faithful with
      | opening syn' => simp [syn] at syn'
      | bare position inside _ _ payload fin => simp [payload, fin, Bytes.hasAt_nil]
      | carries i inside _ seqno payload fin =>
        have same : index = i := Nat.succ.inj (found (by omega) seqno)
        exact same ▸ ⟨payload, fin⟩
    obtain ⟨next, kept⟩ := pieces whole ended follows.reassembler piece.1 piece.2
    exact ⟨next, kept, follows.isn⟩

end TcpStack.Receiver

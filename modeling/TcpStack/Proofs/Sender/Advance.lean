import TcpStack.Proofs.Sender.Ledger

/-! How a sender goes on. It takes back no number that it sent, loses no acknowledgment, and sends nothing
behind its FIN; so of its states, which are read off these counts, none comes back once it was left. -/

namespace TcpStack

def SendState.rank : SendState → Nat
  | .closed => 0
  | .synSent => 1
  | .synAcked => 2
  | .finSent => 3
  | .finAcked => 4
  | .error => 5

namespace Sender

open Outcome

def released (s : Sender) : Nat := s.nextSeqno - s.inFlight

structure Advances (s after : Sender) : Prop where
  failed : s.stream.failed = true → after.stream.failed = true
  sent : s.nextSeqno ≤ after.nextSeqno
  released : s.released ≤ after.released
  finSent : s.finSent = true → after.finSent = true ∧ after.nextSeqno = s.nextSeqno

variable {s middle after : Sender} {offer : Option (SeqNum × UInt16)}

theorem Advances.refl (s : Sender) : Advances s s :=
  ⟨id, Nat.le_refl _, Nat.le_refl _, fun sent => ⟨sent, rfl⟩⟩

theorem Advances.trans (first : Advances s middle) (second : Advances middle after) :
    Advances s after := by
  refine ⟨second.failed ∘ first.failed, Nat.le_trans first.sent second.sent,
    Nat.le_trans first.released second.released, fun sent => ?_⟩
  obtain ⟨sent', same⟩ := first.finSent sent
  obtain ⟨sent'', same'⟩ := second.finSent sent'
  exact ⟨sent'', same'.trans same⟩

theorem Advances.of_same (failed : s.stream.failed = true → after.stream.failed = true)
    (next_eq : after.nextSeqno = s.nextSeqno) (inFlight_eq : after.inFlight = s.inFlight)
    (fin_eq : after.finSent = s.finSent) : Advances s after := by
  refine ⟨failed, Nat.le_of_eq next_eq.symm, Nat.le_of_eq ?_, fun sent => ⟨fin_eq.trans sent, next_eq⟩⟩
  unfold Sender.released
  rw [next_eq, inFlight_eq]

theorem release_le {ack inFlight left : Nat} {outstanding rest : List Outstanding}
    (h : release ack inFlight outstanding = .ok (left, rest)) : left ≤ inFlight := by
  induction outstanding generalizing inFlight with
  | nil =>
    cases h
    exact Nat.le_refl _
  | cons oldest others ih =>
    unfold release at h
    split at h
    · simp only [bind_eq_ok, Count.sub_eq_ok_iff] at h
      obtain ⟨_, ⟨rfl, -⟩, h⟩ := h
      exact Nat.le_trans (ih h) (Nat.sub_le _ _)
    · cases h
      exact Nat.le_refl _

variable {accepted : Bytes} {ended : Bool} {isn : SeqNum}

theorem Step.advances (step : Step offer s after) (serves : Serves accepted ended isn s) :
    Advances s after := by
  cases step with
  | opens unopened =>
    refine ⟨id, Nat.le_add_right _ _, Nat.le_of_eq (Nat.add_sub_add_right _ _ _).symm, fun sent => ?_⟩
    have two := (serves.finished sent).1
    omega
  | @cuts stream _ _ _ going _ hcut =>
    have failed_eq := (cut_spec serves.sound hcut).2.1.failed_eq
    refine ⟨failed_eq.trans, Nat.le_add_right _ _,
      Nat.le_of_eq (Nat.add_sub_add_right _ _ _).symm, fun sent => ?_⟩
    simp [going] at sent
  | acks _ _ _ _ hadvance =>
    obtain ⟨_, _, _, _, hrelease, rfl⟩ := advance_eq_ok hadvance
    exact ⟨id, Nat.le_refl _, Nat.sub_le_sub_left (release_le hrelease) _, fun sent => ⟨sent, rfl⟩⟩
  | hears | ages | resends | replies => exact .of_same id rfl rfl rfl

theorem Advances.rank_le (advances : Advances s after) (ledger : Ledger s) (ledger' : Ledger after) :
    s.state.rank ≤ after.state.rank := by
  obtain ⟨failed, sent, released, fin⟩ := advances
  have inFlight_le := ledger.inFlight_le
  have inFlight_le' := ledger'.inFlight_le
  unfold Sender.released at released
  cases broken : after.stream.failed with
  | true =>
    have last : after.state = .error := if_pos broken
    rw [last]
    cases s.state <;> decide
  | false =>
    have spared : s.stream.failed = false :=
      Bool.eq_false_iff.mpr fun broke => Bool.false_ne_true (broken.symm.trans (failed broke))
    simp only [Sender.state, spared, broken, Bool.false_eq_true, if_false]
    by_cases unopened : s.nextSeqno = 0
    · rw [if_pos unopened]
      exact Nat.zero_le _
    rw [if_neg unopened, if_neg (show ¬after.nextSeqno = 0 by omega)]
    by_cases unanswered : s.nextSeqno = s.inFlight
    · rw [if_pos unanswered]
      repeat' split
      all_goals decide
    rw [if_neg unanswered, if_neg (show ¬after.nextSeqno = after.inFlight by omega)]
    cases sent : s.finSent with
    | false =>
      rw [if_pos (show (!false) = true from rfl)]
      repeat' split
      all_goals decide
    | true =>
      obtain ⟨sent', same⟩ := fin sent
      rw [sent', if_neg (show ¬(!true) = true by decide), if_neg (show ¬(!true) = true by decide)]
      by_cases waiting : 0 < s.inFlight
      · rw [if_pos waiting]
        split <;> decide
      · exact Nat.le_of_eq (by rw [if_neg waiting, if_neg (show ¬0 < after.inFlight by omega)])

end Sender
end TcpStack

import TcpStack.Proofs.Receiver.Intake

/-! How a receiver goes on. What it has taken in stays taken in, and what it has let in stays let in: the
end of its window never falls. So what a segment acknowledges and grants when it is stamped is so at any
later time. -/

namespace TcpStack.Receiver

open Outcome

def limit (r : Receiver) : Nat := r.reassembler.nextIndex + r.window

/-- The first number behind the window. -/
def edge (r : Receiver) : Nat := r.ackPosition + r.window

def Covers (r : Receiver) (segment : Segment) : Prop :=
  segment.ack = true → ∃ isn position, r.isn = some isn ∧
    segment.ackno = SeqNum.wrap position isn ∧ position ≤ r.ackPosition ∧
    position + segment.window.toNat ≤ r.edge

/-- How many numbers of the peer are taken in, from its SYN on. -/
def acknowledged (r : Receiver) : Nat := if r.isn.isSome then r.ackPosition else 0

/-- What was taken in by `r` is taken in by `after`, and what was let in is let in. -/
structure Advances (r after : Receiver) : Prop where
  isn : ∀ isn, r.isn = some isn → after.isn = some isn
  next : r.reassembler.nextIndex ≤ after.reassembler.nextIndex
  finished : r.reassembler.finished = true → after.reassembler.finished = true
  limit : r.limit ≤ after.limit

theorem Advances.refl (r : Receiver) : Advances r r :=
  ⟨fun _ known => known, Nat.le_refl _, id, Nat.le_refl _⟩

theorem Advances.trans {r middle after : Receiver} (first : Advances r middle)
    (second : Advances middle after) : Advances r after :=
  ⟨fun isn known => second.isn isn (first.isn isn known), Nat.le_trans first.next second.next,
    second.finished ∘ first.finished, Nat.le_trans first.limit second.limit⟩

theorem Advances.finished_le {r after : Receiver} (advances : Advances r after) :
    r.reassembler.finished.toNat ≤ after.reassembler.finished.toNat := by
  cases finished : r.reassembler.finished with
  | false => exact Nat.zero_le _
  | true => rw [advances.finished finished]

theorem Advances.position {r after : Receiver} (advances : Advances r after) :
    r.ackPosition ≤ after.ackPosition :=
  Nat.add_le_add (Nat.succ_le_succ advances.next) advances.finished_le

theorem edge_eq (r : Receiver) : r.edge = r.limit + 1 + r.reassembler.finished.toNat := by
  unfold edge limit ackPosition
  omega

theorem Advances.edge {r after : Receiver} (advances : Advances r after) : r.edge ≤ after.edge := by
  rw [edge_eq, edge_eq]
  exact Nat.add_le_add (Nat.succ_le_succ advances.limit) advances.finished_le

theorem Advances.covers {r after : Receiver} {segment : Segment} (advances : Advances r after)
    (covers : r.Covers segment) : after.Covers segment := by
  intro ack
  obtain ⟨isn, position, known, ackno, position_le, window_le⟩ := covers ack
  exact ⟨isn, position, advances.isn isn known, ackno, Nat.le_trans position_le advances.position,
    Nat.le_trans window_le advances.edge⟩

theorem Advances.acknowledged_le {r after : Receiver} (advances : Advances r after) :
    r.acknowledged ≤ after.acknowledged := by
  unfold acknowledged
  cases known : r.isn with
  | none => exact Nat.zero_le _
  | some isn => simp [advances.isn isn known, advances.position]

/-- What a stamp makes of a segment. It needs the peer's number, and tells as much of the window as a header
can hold. -/
inductive Stamped (r : Receiver) (segment : Segment) : Segment → Prop
  | bare (unknown : r.isn = none) : Stamped r segment segment
  | acknowledges {isn : SeqNum} {window : UInt16} (known : r.isn = some isn)
      (width : window.toNat = min r.window widestWindow) : Stamped r segment
        { segment with ack := true, ackno := SeqNum.wrap r.ackPosition isn, window }

theorem stamp_stamped {r : Receiver} {segment stamped : Segment} (h : r.stamp segment = .ok stamped) :
    Stamped r segment stamped := by
  unfold stamp at h
  simp only [bind_eq_ok] at h
  obtain ⟨ackno, hackno, h⟩ := h
  have value := ackno_of_checkedAckno hackno
  cases ackno with
  | none =>
    cases h
    exact .bare (Option.map_eq_none_iff.mp value)
  | some ackno =>
    simp only [bind_eq_ok, pure_eq_ok] at h
    obtain ⟨width, hwidth, rfl⟩ := h
    obtain ⟨isn, known, rfl⟩ := Option.map_eq_some_iff.mp value
    obtain rfl : width = r.window := (Count.sub_eq_ok_iff.mp hwidth).1
    refine .acknowledges known ?_
    rw [UInt16.toNat_ofNat']
    exact Nat.mod_eq_of_lt (Nat.lt_of_le_of_lt (Nat.min_le_right _ _) (by decide))

theorem stamp_same {r : Receiver} {segment stamped : Segment} (h : r.stamp segment = .ok stamped) :
    stamped.syn = segment.syn ∧ stamped.seqno = segment.seqno ∧
      stamped.payload = segment.payload ∧ stamped.fin = segment.fin ∧ stamped.rst = segment.rst := by
  cases stamp_stamped h with
  | bare | acknowledges => exact ⟨rfl, rfl, rfl, rfl, rfl⟩

theorem map_unstamped_of_stamps {r : Receiver} {segments stamped : List Segment}
    (h : segments.mapM r.stamp = .ok stamped) :
    stamped.map Segment.unstamped = segments.map Segment.unstamped := by
  induction segments generalizing stamped with
  | nil =>
    rw [List.mapM_nil, pure_eq_ok] at h
    rw [← h]
  | cons segment rest ih =>
    rw [List.mapM_cons] at h
    simp only [bind_eq_ok, pure_eq_ok] at h
    obtain ⟨first, hfirst, others, hothers, rfl⟩ := h
    have same : first.unstamped = segment.unstamped := by
      cases stamp_stamped hfirst with
      | bare | acknowledges => rfl
    rw [List.map_cons, List.map_cons, same, ih hothers]

theorem covers_of_stamp {r : Receiver} {segment stamped : Segment} (plain : segment.ack = false)
    (h : r.stamp segment = .ok stamped) : r.Covers stamped := by
  cases stamp_stamped h with
  | bare =>
    intro ack
    simp [plain] at ack
  | @acknowledges isn window known width =>
    have width_le : window.toNat ≤ r.window := Nat.le_trans (Nat.le_of_eq width) (Nat.min_le_left _ _)
    exact fun _ => ⟨isn, r.ackPosition, known, rfl, Nat.le_refl _, Nat.add_le_add_left width_le _⟩

theorem Takes.advances {r after : Receiver} {segment : Segment} {accepted : Bool}
    (takes : Takes r segment after accepted) (sound : r.stream.Sound) : Advances r after := by
  obtain ⟨delivered, goes, -⟩ := takes.spec sound
  have next_eq := goes.next_eq
  have size_eq := goes.size_eq
  have capacity_eq := goes.capacity_eq
  refine ⟨fun isn known => takes.isn_stays known, by omega, fun finished =>
    (goes.stays_ended finished).1, ?_⟩
  unfold limit window Reassembler.window
  omega

end TcpStack.Receiver

import TcpStack.Proofs.Reassembler.Room
import TcpStack.Proofs.Receiver.Advance
import TcpStack.Proofs.Receiver.Window

/-! Receivers on their own, fed with segments and read from. Whatever the segments are, the store is in
order and the end is told as soon as it has come; if none reaches behind the window that is open when it
comes, nothing is held behind the window either. -/

namespace TcpStack.Receiver

open Outcome

def place (r : Receiver) (segment : Segment) : Option Nat :=
  match r.isn, segment.syn with
  | none, true => some 0
  | some isn, false =>
    match segment.seqno.unwrap isn r.reassembler.nextIndex with
    | .ok (index + 1) => some index
    | _ => none
  | _, _ => none

def Within (r : Receiver) (segment : Segment) : Prop :=
  ∀ index ∈ r.place segment, index + segment.payload.length ≤ r.limit

instance (r : Receiver) (segment : Segment) : Decidable (r.Within segment) :=
  match placed : r.place segment with
  | none => .isTrue fun index here => by rw [placed] at here; cases here
  | some index =>
    if inside : index + segment.payload.length ≤ r.limit then
      .isTrue fun other here => by rw [placed] at here; cases here; exact inside
    else .isFalse fun within => inside (within index placed)

/-- The receivers that segments and reads lead to, where `admits` says which segments may come. -/
inductive Fed (admits : Receiver → Segment → Prop) : Receiver → Prop
  | made {capacity : Nat} {r : Receiver} (h : create capacity = .ok r) : Fed admits r
  | took {r after : Receiver} {segment : Segment} {accepted : Bool} (fed : Fed admits r)
      (admitted : admits r segment) (h : (r.segmentReceived segment).result = .ok (after, accepted)) :
      Fed admits after
  | read {r after : Receiver} {call : ByteStream.Call} {reply : Reply} (fed : Fed admits r)
      (reads : call.reads = true) (h : r.performStream call = .ok (after, reply)) : Fed admits after

def feed (admits : Receiver → Segment → Prop) [∀ r segment, Decidable (admits r segment)]
    (r : Receiver) : (segments : List Segment) → Option Receiver
  | [] => some r
  | segment :: rest =>
    if admits r segment then
      match (r.segmentReceived segment).result with
      | .ok (after, _) => feed admits after rest
      | .error _ => none
    else none

section placing

variable {r : Receiver} {segment : Segment} {isn : SeqNum} {index : Nat}

theorem place_eq_some (known : r.isn = some isn) : r.place segment = some index ↔
    segment.syn = false ∧ segment.seqno.unwrap isn r.reassembler.nextIndex = .ok (index + 1) := by
  unfold place
  rw [known]
  cases syn : segment.syn with
  | true => simp
  | false =>
    simp only [true_and]
    split
    · rename_i found unwrapped
      rw [unwrapped, Option.some.injEq, Except.ok.injEq]
      exact Nat.succ_inj.symm
    · rename_i none
      exact ⟨fun here => (by cases here), fun unwrapped => absurd unwrapped (none index)⟩

theorem place_of_syn (unknown : r.isn = none) (syn : segment.syn = true) :
    r.place segment = some 0 := by
  unfold place
  rw [unknown, syn]

end placing

variable {admits : Receiver → Segment → Prop} {r after : Receiver} {segment : Segment} {accepted : Bool}

theorem Fed.feed [∀ r segment, Decidable (admits r segment)] (fed : Fed admits r)
    {segments : List Segment} (h : feed admits r segments = some after) : Fed admits after := by
  induction segments generalizing r with
  | nil =>
    cases h
    exact fed
  | cons segment rest ih =>
    unfold Receiver.feed at h
    split at h
    · rename_i admitted
      split at h
      · rename_i received
        exact ih (fed.took admitted received) h
      · cases h
    · cases h

theorem Takes.cases_push (takes : Takes r segment after accepted) :
    after.reassembler = r.reassembler ∨ ∃ index, r.place segment = some index ∧
      r.reassembler.push segment.payload index segment.fin = .ok after.reassembler := by
  cases takes with
  | refused | late => exact Or.inl rfl
  | opens unknown syn push => exact Or.inr ⟨0, place_of_syn unknown syn, push⟩
  | goesOn known syn place _ _ push => exact Or.inr ⟨_, (place_eq_some known).mpr ⟨syn, place⟩, push⟩

theorem performStream_drops {call : ByteStream.Call} {reply : Reply} (sound : r.stream.Sound)
    (reads : call.reads = true) (h : r.performStream call = .ok (after, reply)) :
    ∃ output count, r.reassembler.output.Drops count output ∧
      after = { r with reassembler := { r.reassembler with output } } := by
  unfold performStream at h
  simp only [bind_eq_ok, pure_eq_ok] at h
  obtain ⟨⟨output, _⟩, perform, h⟩ := h
  cases h
  obtain ⟨count, drops, -⟩ := ByteStream.perform_drops sound reads perform
  exact ⟨output, count, drops, rfl⟩

theorem create_eq_ok {capacity : Nat} (h : create capacity = .ok r) :
    capacity < Cells.limit ∧ r = ofCapacity capacity := by
  unfold create at h
  simp only [bind_eq_ok, pure_eq_ok] at h
  obtain ⟨_, fits, rfl⟩ := h
  exact ⟨Cells.checkSize_eq_ok_iff.mp fits, rfl⟩

structure Orderly (r : Receiver) : Prop where
  rests : r.reassembler.Rests
  prompt : r.reassembler.Prompt

theorem Fed.orderly (fed : Fed admits r) : r.Orderly := by
  induction fed with
  | made h =>
    obtain ⟨fits, rfl⟩ := create_eq_ok h
    exact ⟨Reassembler.rests_ofCapacity fits, Reassembler.prompt_ofCapacity _⟩
  | took _ _ h ih =>
    rcases (segmentReceived_takes h).cases_push with same | ⟨index, -, push⟩
    · exact ⟨same ▸ ih.rests, same ▸ ih.prompt⟩
    · exact ⟨(Reassembler.push_rests ih.rests push).1, Reassembler.push_prompt ih.prompt push⟩
  | read _ reads h ih =>
    obtain ⟨output, count, drops, rfl⟩ := performStream_drops ih.rests.sound reads h
    exact ⟨ih.rests.drops drops, ih.prompt.withOutput drops.ended_eq⟩

theorem Fed.holds_lt (fed : Fed Within r) (i : Nat) (held : r.reassembler.Holds i) : i < r.limit := by
  induction fed generalizing i with
  | made h =>
    obtain ⟨-, rfl⟩ := create_eq_ok h
    rcases held with left | pending
    · exact absurd left (Nat.not_lt_zero i)
    · exact absurd rfl pending
  | @took r after segment accepted fed within h ih =>
    have takes := segmentReceived_takes h
    have limit_le := (takes.advances fed.orderly.rests.sound).limit
    rcases takes.cases_push with same | ⟨index, placed, push⟩
    · rw [same] at held
      exact Nat.lt_of_lt_of_le (ih i held) limit_le
    rw [(Reassembler.push_rests fed.orderly.rests push).2] at held
    rcases held with before | ⟨first, last⟩
    · exact Nat.lt_of_lt_of_le (ih i before) limit_le
    · have inside := within index placed
      have length_eq := Reassembler.length_taken r.reassembler segment.payload index
      omega
  | @read r after call reply fed reads h ih =>
    obtain ⟨output, count, drops, rfl⟩ := performStream_drops fed.orderly.rests.sound reads h
    have before : i < r.limit := ih i held
    have size_le := drops.size_le
    unfold limit window Reassembler.window at *
    simp only
    omega

end TcpStack.Receiver

import TcpStack.Proofs.Connection.Returns
import TcpStack.Proofs.Receiver.Fed

/-! What a receiver takes of the bytes that its window lets in. The pending bytes take up room, but do not
make the window smaller, and what a payload has in common with them takes up room twice. So the next byte
may find no room in an open window, and the end of a payload inside the window may get lost; neither does
as long as the peer stays inside the window and sends no byte that is held. -/

namespace TcpStack.Receiver

open Outcome

variable {admits : Receiver → Segment → Prop} {r after : Receiver} {segment : Segment} {accepted : Bool}
  {index : Nat}

theorem Takes.pushes (takes : Takes r segment after accepted) (known : r.isn ≠ none)
    (going : r.reassembler.finished = false) (placed : r.place segment = some index)
    (overlaps : r.Overlaps index segment.payload.length) :
    accepted = true ∧ ∃ reassembler,
      r.reassembler.push segment.payload index segment.fin = .ok reassembler ∧
      after = { r with reassembler } := by
  obtain ⟨isn, known'⟩ := Option.ne_none_iff_exists'.mp known
  obtain ⟨syn, found⟩ := (place_eq_some known').mp placed
  cases takes with
  | late unknown | opens unknown => exact absurd unknown known
  | @goesOn reassembler isn' index' known'' _ place _ _ push =>
    rw [known', Option.some.injEq] at known''
    subst known''
    rw [found, Except.ok.injEq, Nat.add_right_cancel_iff] at place
    subst place
    exact ⟨rfl, reassembler, push, rfl⟩
  | refused reason =>
    cases reason with
    | early unknown => exact absurd unknown known
    | again _ second =>
      rw [syn] at second
      cases second
    | ended _ finished =>
      rw [going] at finished
      cases finished
    | before known'' place =>
      rw [known', Option.some.injEq] at known''
      subst known''
      rw [found] at place
      cases place
    | @outside isn' index' known'' place apart =>
      rw [known', Option.some.injEq] at known''
      subst known''
      rw [found, Except.ok.injEq, Nat.add_right_cancel_iff] at place
      subst place
      cases (overlapsWindow_eq_ok apart).mpr overlaps

theorem unassembled_lt_window (fed : Fed Within r) (going : r.reassembler.finished = false)
    (wide : 0 < r.window) : r.reassembler.unassembled < r.window := by
  have rests := fed.orderly.rests
  have free : ∀ i, r.reassembler.nextIndex ≤ i → i < r.reassembler.nextIndex + 1 →
      ¬r.reassembler.Holds i := by
    rintro i first last (left | pending)
    · omega
    · obtain rfl : i = r.reassembler.nextIndex := by omega
      exact pending (rests.missing going)
  have fits : r.reassembler.nextIndex + [(0 : UInt8)].length ≤ r.limit := Nat.add_le_add_left wide _
  obtain ⟨-, length_eq⟩ :=
    Reassembler.taken_all rests rfl (List.cons_ne_nil 0 []) fed.holds_lt fits free
  rw [Reassembler.length_taken] at length_eq
  unfold Reassembler.allowance at length_eq
  unfold window Reassembler.window at *
  simp only [List.length_singleton] at length_eq
  omega

/-- An open window lets in the next byte exactly if there are fewer pending bytes than it has room for.
That is so if no segment reached behind the window; otherwise the byte may change nothing at all. -/
theorem next_byte_taken_iff (fed : Fed admits r) (known : r.isn ≠ none)
    (going : r.reassembler.finished = false) (wide : 0 < r.window)
    (placed : r.place segment = some r.reassembler.nextIndex) (some : segment.payload ≠ []) :
    (∀ after accepted, (r.segmentReceived segment).result = .ok (after, accepted) →
      if r.reassembler.unassembled < r.window then r.ackPosition < after.ackPosition else after = r) ∧
    (Fed Within r → r.reassembler.unassembled < r.window) ∧
    (r.reassembler.nextIndex + r.reassembler.capacity + segment.payload.length + 2 * SeqNum.cycle ≤
      Count.bound → ∃ after accepted, (r.segmentReceived segment).result = .ok (after, accepted)) := by
  have positive := List.length_pos_iff.mpr some
  have orderly := fed.orderly
  refine ⟨fun after accepted h => ?_, fun within => unassembled_lt_window within going wide,
    fun near => Ready.segmentReceived_returns ⟨orderly.rests, near⟩⟩
  have takes := segmentReceived_takes h
  have overlaps : r.Overlaps r.reassembler.nextIndex segment.payload.length := by
    unfold Overlaps
    rw [if_neg (Nat.ne_of_gt positive)]
    omega
  obtain ⟨-, reassembler, push, rfl⟩ := takes.pushes known going placed overlaps
  have next := Reassembler.push_next orderly.rests orderly.prompt going some wide push
  have spare_iff : 0 < r.reassembler.spare ↔ r.reassembler.unassembled < r.window :=
    Nat.sub_pos_iff_lt
  by_cases room : r.reassembler.unassembled < r.window
  · rw [if_pos (spare_iff.mpr room)] at next
    rw [if_pos room]
    unfold ackPosition
    rw [going]
    simp only [Bool.toNat_false]
    omega
  · rw [if_neg (mt spare_iff.mp room)] at next
    rw [if_neg room, next]

theorem next_byte_taken_before_pending : ∃ r after, Fed Within r ∧ r.window = 3 ∧
    r.reassembler.unassembled = 2 ∧
    (r.segmentReceived { seqno := ⟨5002⟩, payload := [0x62] }).result = .ok (after, true) ∧
    r.ackPosition < after.ackPosition := by
  have seen : ∃ r ∈ feed Within (ofCapacity 4)
        [{ syn := true, seqno := ⟨5000⟩ }, { seqno := ⟨5001⟩, payload := [0x61] },
          { seqno := ⟨5003⟩, payload := [0x63, 0x64] }],
      r.isn ≠ none ∧ r.reassembler.finished = false ∧ r.window = 3 ∧ r.reassembler.unassembled = 2 ∧
      r.place { seqno := ⟨5002⟩, payload := [0x62] } = some r.reassembler.nextIndex ∧
      ∃ step ∈ (r.segmentReceived { seqno := ⟨5002⟩, payload := [0x62] }).result.toOption,
        step.2 = true := by decide +kernel
  obtain ⟨r, run, known, going, wide, pending, placed, ⟨after, accepted⟩, received, rfl⟩ := seen
  have makes : create 4 = .ok (ofCapacity 4) := rfl
  have made : Fed Within (ofCapacity 4) := .made makes
  have fed := made.feed run
  rw [mem_toOption] at received
  have advances := (next_byte_taken_iff fed known going (by omega) placed (List.cons_ne_nil _ _)).1
    after true received
  rw [if_pos (by omega)] at advances
  exact ⟨r, after, fed, wide, pending, received, advances⟩

def crammed : List Segment :=
  [{ syn := true, seqno := ⟨5000⟩ }, { seqno := ⟨5001⟩, payload := [0x61] },
    { seqno := ⟨5003⟩, payload := [0x63, 0x64, 0x65] }]

/-- The byte that the receiver asks for is refused, with room for three bytes told to the other side. -/
theorem next_byte_refused : ∃ r after, feed (fun _ _ => True) (ofCapacity 4) crammed = some r ∧
    Fed (fun _ _ => True) r ∧ r.isn ≠ none ∧ r.reassembler.finished = false ∧ r.window = 3 ∧
    r.place { seqno := ⟨5002⟩, payload := [0x62] } = some r.reassembler.nextIndex ∧
    (r.segmentReceived { seqno := ⟨5002⟩, payload := [0x62] }).result = .ok (after, true) ∧
    after.ackno = r.ackno := by
  have seen : ∃ r ∈ feed (fun _ _ => True) (ofCapacity 4) crammed,
      r.isn ≠ none ∧ r.reassembler.finished = false ∧ r.window = 3 ∧
      r.place { seqno := ⟨5002⟩, payload := [0x62] } = some r.reassembler.nextIndex ∧
      ∃ step ∈ (r.segmentReceived { seqno := ⟨5002⟩, payload := [0x62] }).result.toOption,
        step.2 = true ∧ step.1.ackno = r.ackno := by decide +kernel
  obtain ⟨r, run, known, going, wide, placed, ⟨after, accepted⟩, received, rfl, same⟩ := seen
  have makes : create 4 = .ok (ofCapacity 4) := rfl
  have made : Fed (fun _ _ => True) (ofCapacity 4) := .made makes
  exact ⟨r, after, run, made.feed run, known, going, wide, placed, mem_toOption.mp received, same⟩

/-- Of a payload inside the window the receiver holds afterwards what it held and the beginning that there
is room for. So all of it is held exactly if the rest was, and a FIN counts exactly if there is no rest;
there is none if nothing of the payload was held before. -/
theorem payload_kept_iff (fed : Fed Within r) (known : r.isn ≠ none)
    (going : r.reassembler.finished = false) (placed : r.place segment = some index)
    (ahead : r.reassembler.nextIndex ≤ index) (inside : index + segment.payload.length ≤ r.limit)
    (stands : segment.payload = [] → index = r.reassembler.nextIndex ∨ index < r.limit) :
    (∀ after accepted, (r.segmentReceived segment).result = .ok (after, accepted) →
      accepted = true ∧
      ((∀ i, index ≤ i → i < index + segment.payload.length → after.reassembler.Holds i) ↔
        ∀ i, index + r.reassembler.spare ≤ i → i < index + segment.payload.length →
          r.reassembler.Holds i) ∧
      after.reassembler.endIndex =
        if segment.fin = true ∧ segment.payload.length ≤ r.reassembler.spare then
          some (index + segment.payload.length)
        else r.reassembler.endIndex) ∧
    ((∀ i, index ≤ i → i < index + segment.payload.length → ¬r.reassembler.Holds i) →
      segment.payload.length ≤ r.reassembler.spare) ∧
    (r.reassembler.nextIndex + r.reassembler.capacity + segment.payload.length + 2 * SeqNum.cycle ≤
      Count.bound → ∃ after accepted, (r.segmentReceived segment).result = .ok (after, accepted)) := by
  have rests := fed.orderly.rests
  have near : index = r.reassembler.nextIndex ∨ index < r.limit := by
    by_cases none : segment.payload = []
    · exact stands none
    · have positive := List.length_pos_iff.mpr none
      omega
  have overlaps : r.Overlaps index segment.payload.length := by
    unfold Overlaps
    unfold limit at *
    split <;> omega
  refine ⟨fun after accepted h => ?_, fun free => ?_, fun short =>
    Ready.segmentReceived_returns ⟨rests, short⟩⟩
  · obtain ⟨taken, reassembler, push, rfl⟩ :=
      (segmentReceived_takes h).pushes known going placed overlaps
    obtain ⟨held, marked⟩ := Reassembler.push_inside rests ahead inside near push
    refine ⟨taken, ?_, marked⟩
    constructor
    · intro kept i rest last
      rcases (held i).mp (kept i (by omega) last) with before | ⟨-, new⟩
      · exact before
      · omega
    · intro rest i first last
      by_cases room : i < index + r.reassembler.spare
      · exact (held i).mpr (Or.inr ⟨first, by omega⟩)
      · exact (held i).mpr (Or.inl (rest i (by omega) last))
  · by_cases none : segment.payload = []
    · rw [none]
      exact Nat.zero_le _
    · obtain ⟨-, all⟩ := Reassembler.taken_all rests rfl none fed.holds_lt inside free
      rw [Reassembler.length_taken_inside segment.payload ahead inside] at all
      omega

def gapped : List Segment :=
  [{ syn := true, seqno := ⟨5000⟩ }, { seqno := ⟨5003⟩, payload := [0x63, 0x64, 0x65, 0x66, 0x67] }]

def ending : Segment := { fin := true, seqno := ⟨5005⟩, payload := [0x65, 0x66, 0x67, 0x68, 0x69] }

theorem payload_kept_over_pending : ∃ r after, Fed Within r ∧ r.reassembler.spare = 5 ∧
    (r.segmentReceived ending).result = .ok (after, true) ∧
    (∀ i, 4 ≤ i → i < 9 → after.reassembler.Holds i) ∧ after.reassembler.endIndex = some 9 := by
  have seen : ∃ r ∈ feed Within (ofCapacity 10) gapped,
      r.isn ≠ none ∧ r.reassembler.finished = false ∧ r.place ending = some 4 ∧
      r.reassembler.nextIndex = 0 ∧ r.limit = 10 ∧ r.reassembler.spare = 5 ∧
      ∃ step ∈ (r.segmentReceived ending).result.toOption, step.2 = true := by decide +kernel
  obtain ⟨r, run, known, going, placed, next, limit, room, ⟨after, accepted⟩, received, rfl⟩ := seen
  have makes : create 10 = .ok (ofCapacity 10) := rfl
  have made : Fed Within (ofCapacity 10) := .made makes
  have fed := made.feed run
  rw [mem_toOption] at received
  have length_eq : ending.payload.length = 5 := rfl
  obtain ⟨-, kept, marked⟩ := (payload_kept_iff fed known going placed (by omega) (by omega)
    (fun none => by cases none)).1 after true received
  rw [if_pos ⟨rfl, by omega⟩] at marked
  exact ⟨r, after, fed, room, received, kept.mpr fun i first last => by omega, marked⟩

def overlapping : Segment :=
  { seqno := ⟨5001⟩, payload := [0x61, 0x62, 0x63, 0x64, 0x65, 0x66, 0x67, 0x68, 0x69, 0x6a] }

/-- The pending bytes are counted twice, and the last three are lost. -/
theorem payload_end_lost : ∃ r after, feed Within (ofCapacity 10) gapped = some r ∧ Fed Within r ∧
    r.isn ≠ none ∧ r.reassembler.finished = false ∧ r.place overlapping = some 0 ∧
    r.reassembler.nextIndex = 0 ∧ r.window = 10 ∧ overlapping.payload.length = 10 ∧
    (r.segmentReceived overlapping).result = .ok (after, true) ∧
    ∀ i, 7 ≤ i → ¬after.reassembler.Holds i := by
  have seen : ∃ r ∈ feed Within (ofCapacity 10) gapped,
      r.isn ≠ none ∧ r.reassembler.finished = false ∧ r.place overlapping = some 0 ∧
      r.reassembler.nextIndex = 0 ∧ r.window = 10 ∧
      ∃ step ∈ (r.segmentReceived overlapping).result.toOption, step.2 = true ∧
        step.1.reassembler.nextIndex = 7 ∧ step.1.reassembler.pending = [] := by decide +kernel
  obtain ⟨r, run, known, going, placed, next, wide, ⟨after, accepted⟩, received, rfl, stopped,
    nothing⟩ := seen
  have makes : create 10 = .ok (ofCapacity 10) := rfl
  have made : Fed Within (ofCapacity 10) := .made makes
  refine ⟨r, after, run, made.feed run, known, going, placed, next, wide, rfl,
    mem_toOption.mp received, fun i behind held => ?_⟩
  simp only at stopped nothing
  rcases held with left | pending
  · omega
  · rw [nothing] at pending
    exact pending rfl

end TcpStack.Receiver

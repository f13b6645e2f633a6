import TcpStack.Proofs.Reassembler.Reached

/-! Where a stream ends. The last end mark that counts is kept, and the output ends as soon as all before it
has left. Pieces may contradict their marks: what is pending goes out as a whole, also past the mark, so the
stream ends at the mark exactly if the byte there has not come. -/

namespace TcpStack.Reassembler

open Outcome

/-- Whether an end mark on the piece counts: the piece stops at the next position, or is new and taken up to
its last byte. -/
def counts (r : Reassembler) (bytes : Bytes) (index : Nat) : Bool :=
  if index + bytes.length ≤ r.nextIndex then index + bytes.length == r.nextIndex
  else max index r.nextIndex < r.nextIndex + r.capacity &&
    (r.taken bytes index).length == (r.fresh bytes index).length

/-- The piece stops at the next position, or behind it and begins inside the capacity. -/
def Reaches (r : Reassembler) (bytes : Bytes) (index : Nat) : Prop :=
  index + bytes.length = r.nextIndex ∨
    r.nextIndex < index + bytes.length ∧ max index r.nextIndex < r.nextIndex + r.capacity

/-- Where the call tells the stream to end, if it does. -/
def Call.tells : Call → Option Nat
  | .push bytes index true => some (index + bytes.length)
  | _ => none

def told (calls : List Call) : List Nat := calls.filterMap Call.tells

def Brings (r : Reassembler) (i : Nat) : Call → Prop
  | .push bytes index _ => max index r.nextIndex ≤ i ∧
      i < max index r.nextIndex + (r.taken bytes index).length
  | .output _ => False

variable {capacity : Nat} {read read' : Bytes} {r after : Reassembler} {call : Call} {calls : List Call}

theorem counts_iff (r : Reassembler) (bytes : Bytes) (index : Nat) :
    r.counts bytes index = true ↔ r.Reaches bytes index ∧ r.Fits bytes index := by
  unfold counts Reaches
  rw [fits_iff]
  by_cases old : index + bytes.length ≤ r.nextIndex
  · have length_eq := length_taken r bytes index
    have fresh_eq : (r.fresh bytes index).length = 0 := by
      rw [fresh, List.length_drop]
      omega
    rw [if_pos old, beq_iff_eq]
    omega
  · rw [if_neg old, Bool.and_eq_true, decide_eq_true_iff, beq_iff_eq]
    refine and_congr_left fun _ => ?_
    omega

theorem mark_endIndex (r : Reassembler) (stop : Nat) (marked : Bool) :
    (r.mark stop marked).endIndex = if marked then some stop else r.endIndex := by
  cases marked <;> rfl

theorem close_ended (r : Reassembler) : r.closeIfFinished.output.ended =
    (r.output.ended || r.endIndex.any fun stop => stop ≤ r.nextIndex) := by
  unfold closeIfFinished
  split
  · rename_i stop marked
    rw [marked, Option.any_some]
    split
    · rename_i left
      rw [decide_eq_true left, Bool.or_true]
      rfl
    · rename_i ahead
      rw [decide_eq_false ahead, Bool.or_false]
  · rename_i none
    rw [none, Option.any_none, Bool.or_false]

section pushing

variable {bytes : Bytes} {index : Nat} {isEnd : Bool}

theorem push_endIndex (sound : r.output.Sound) (h : r.push bytes index isEnd = .ok after) :
    after.endIndex = if isEnd && r.counts bytes index then some (index + bytes.length)
      else r.endIndex := by
  unfold counts
  cases push_cases h with
  | behind old => rw [close_endIndex, mark_endIndex, if_pos old]
  | beyond new far =>
    rw [if_neg (Nat.not_le_of_lt new), decide_eq_false (Nat.not_lt_of_le far), Bool.false_and,
      Bool.and_false]
    rfl
  | untaken new near =>
    rw [close_endIndex, mark_endIndex, if_neg (Nat.not_le_of_lt new), decide_eq_true near,
      Bool.true_and]
  | takes new near _ hinsert hdeliver =>
    have kept := (takes_marks (by rwa [mark_output]) hinsert hdeliver).1
    rw [close_endIndex, kept, mark_endIndex, if_neg (Nat.not_le_of_lt new), decide_eq_true near,
      Bool.true_and]

theorem push_ended (sound : r.output.Sound) (prompt : r.Prompt)
    (h : r.push bytes index isEnd = .ok after) : after.output.ended =
      (r.output.ended || after.endIndex.any fun stop => stop ≤ after.nextIndex) := by
  cases push_cases h with
  | behind | untaken => rw [close_ended, close_endIndex, close_nextIndex, mark_output]
  | beyond =>
    cases ended : r.output.ended with
    | true => rfl
    | false =>
      rw [Bool.false_or, eq_comm, Bool.eq_false_iff]
      intro left
      obtain ⟨stop, marked, le⟩ := (Option.any_eq_true _ _).mp left
      rw [prompt stop marked (of_decide_eq_true le)] at ended
      cases ended
  | takes _ _ _ hinsert hdeliver =>
    have kept := (takes_marks (by rwa [mark_output]) hinsert hdeliver).2.1
    rw [close_ended, close_endIndex, close_nextIndex, kept, mark_output]

theorem push_end (h : r.push [] r.nextIndex true = .ok after) :
    after.output.ended = true ∧ after.nextIndex = r.nextIndex := by
  cases push_cases h with
  | behind old =>
    rw [close_ended, close_nextIndex, mark_endIndex, mark_nextIndex]
    simp
  | beyond new | untaken new | takes new => exact absurd new (Nat.lt_irrefl _)

theorem push_ends_iff (rests : Rests r) (going : r.output.ended = false) {stop : Nat}
    (h : r.push bytes index isEnd = .ok after) (le : stop ≤ after.nextIndex) :
    after.nextIndex = stop ↔ ¬r.Holds stop ∧ ¬r.Brings stop (.push bytes index isEnd) := by
  obtain ⟨store, run, stored, delivery, goes⟩ := push_delivery rests h
  rw [← not_or, Brings, ← (push_rests rests h).2 stop]
  constructor
  · rintro rfl (left | pending)
    · exact Nat.lt_irrefl _ left
    · refine pending ?_
      rw [delivery.kept_eq stored.apart, goes.next_eq, if_neg fun inside => Nat.lt_irrefl _ inside.2]
      exact delivery.missing stored.apart going
  · intro missing
    exact Nat.le_antisymm (Nat.le_of_not_lt fun past => missing (Or.inl past)) le

end pushing

theorem Records.told (records : Records read r call read' after) (sound : r.output.Sound) {stop : Nat}
    (marked : after.endIndex = some stop) : r.endIndex = some stop ∨ call.tells = some stop := by
  cases records with
  | @push bytes index isEnd _ h =>
    rw [push_endIndex sound h] at marked
    split at marked
    · rename_i told
      obtain rfl : isEnd = true := (Bool.and_eq_true_iff.mp told).1
      exact Or.inr marked
    · exact Or.inl marked
  | reads => exact Or.inl marked

theorem history_told (reading : ∀ call ∈ calls, call.readsOutput = true)
    (h : history capacity calls = .ok (read, r)) {stop : Nat} (marked : r.endIndex = some stop) :
    stop ∈ told calls := by
  refine (history_induct (P := fun _ r => ∀ stop, r.endIndex = some stop → stop ∈ told calls)
    reading h nofun fun call member read r read' after reached records known stop marked => ?_).2
      stop marked
  rcases records.told reached.rests.sound marked with old | new
  · exact known stop old
  · exact List.mem_filterMap.mpr ⟨call, member, new⟩

theorem history_concat (h : history capacity calls = .ok (read, r))
    (next : record (read, r) call = .ok (read', after)) :
    history capacity (calls ++ [call]) = .ok (read', after) := by
  unfold history at *
  simp only [bind_eq_ok] at *
  obtain ⟨first, made, h⟩ := h
  refine ⟨first, made, ?_⟩
  rw [List.foldlM_append, h, ok_bind, List.foldlM_cons, next]
  rfl

/-- Until the stream ends no byte past the mark leaves, and a mark is what some push told. The stream ends
there exactly if the byte at the mark was not held and does not come with the call, and otherwise behind it;
afterwards nothing leaves any more. -/
theorem ends_where_told_iff (reading : ∀ other ∈ calls ++ [call], other.readsOutput = true)
    (h : history capacity calls = .ok (read, r))
    (next : record (read, r) call = .ok (read', after)) :
    (read' ++ after.output.toList).length = after.nextIndex ∧
    (after.output.ended = false → ∀ stop, after.endIndex = some stop →
      stop ∈ told (calls ++ [call]) ∧ after.nextIndex < stop) ∧
    (r.output.ended = false → after.output.ended = true →
      ∃ stop ∈ told (calls ++ [call]), after.endIndex = some stop ∧ stop ≤ after.nextIndex ∧
        (after.nextIndex = stop ↔ ¬r.Holds stop ∧ ¬r.Brings stop call)) ∧
    (r.output.ended = true → after.output.ended = true ∧ after.nextIndex = r.nextIndex) := by
  have before := history_reached (fun other member => reading other (by simp [member])) h
  have records := record_records before.rests.sound (reading call (by simp)) next
  have later := before.records records
  have tells {stop : Nat} : after.endIndex = some stop → stop ∈ told (calls ++ [call]) :=
    history_told reading (history_concat h next)
  refine ⟨later.left_eq, fun going stop marked => ⟨tells marked, ?_⟩, fun going ended => ?_,
    fun ended => ?_⟩
  · by_contra past
    rw [later.prompt stop marked (Nat.le_of_not_lt past)] at going
    cases going
  · cases records with
    | @push bytes index isEnd _ push =>
      rw [push_ended before.rests.sound before.prompt push, going, Bool.false_or] at ended
      obtain ⟨stop, marked, left⟩ := (Option.any_eq_true _ _).mp ended
      have le := of_decide_eq_true left
      exact ⟨stop, tells marked, marked, le, push_ends_iff before.rests going push le⟩
    | reads _ drops =>
      rw [drops.ended_eq, going] at ended
      cases ended
  · cases records with
    | push push =>
      obtain ⟨_, run, -, -, goes⟩ := push_delivery before.rests push
      obtain ⟨ended, rfl⟩ := goes.stays_ended ended
      exact ⟨ended, goes.next_eq⟩
    | reads _ drops => exact ⟨drops.ended_eq.trans ended, rfl⟩

def wavering : List Call := [.push [] 6 true, .push [4] 3 true]

theorem ends_at_second_told : ∃ read r read' after, history 8 wavering = .ok (read, r) ∧
    record (read, r) (.push [1, 2, 3] 0 false) = .ok (read', after) ∧ r.output.ended = false ∧
    after.output.ended = true ∧ told (wavering ++ [.push [1, 2, 3] 0 false]) = [6, 4] ∧
    after.nextIndex = 4 := by
  have seen : ∃ point ∈ (history 8 wavering).toOption, point.2.output.ended = false ∧
      Fragment.lookup point.2.pending 4 = none ∧ point.2.nextIndex = 0 ∧
      (point.2.taken [1, 2, 3] 0).length = 3 ∧
      ∃ last ∈ (record point (.push [1, 2, 3] 0 false)).toOption,
        last.2.output.ended = true ∧ last.2.endIndex = some 4 := by decide +kernel
  obtain ⟨⟨read, r⟩, h, going, free, start, three, ⟨read', after⟩, next, ended, marked⟩ := seen
  rw [mem_toOption] at h next
  have reading : ∀ other ∈ wavering ++ [.push [1, 2, 3] 0 false], other.readsOutput = true := by
    decide
  obtain ⟨-, -, ends, -⟩ := ends_where_told_iff reading h next
  obtain ⟨stop, -, marked', -, here⟩ := ends going ended
  obtain rfl : 4 = stop := Option.some.inj (marked.symm.trans marked')
  refine ⟨read, r, read', after, h, next, going, ended, rfl, here.mpr ⟨?_, ?_⟩⟩
  · rintro (left | pending)
    · simp only at start
      omega
    · exact pending free
  · rintro ⟨-, comes⟩
    simp only at start three
    omega

def outrun : List Call := [.push [0x62] 1 true, .push [0x63] 2 false]

/-- The byte behind the end leaves too, and the stream ends where no push told it to. -/
theorem ends_past_told : ∃ read r read' after, history 4 outrun = .ok (read, r) ∧
    (∀ call ∈ outrun, call.readsOutput = true) ∧
    record (read, r) (.push [0x61] 0 false) = .ok (read', after) ∧ r.output.ended = false ∧
    after.output.ended = true ∧ after.endIndex = some 2 ∧ after.nextIndex = 3 ∧
    after.output.toList = [0x61, 0x62, 0x63] ∧
    after.nextIndex ∉ told (outrun ++ [.push [0x61] 0 false]) := by
  have seen : ∃ point ∈ (history 4 outrun).toOption, point.2.output.ended = false ∧
      ∃ last ∈ (record point (.push [0x61] 0 false)).toOption, last.2.output.ended = true ∧
        last.2.endIndex = some 2 ∧ last.2.nextIndex = 3 ∧
        last.2.output.toList = [0x61, 0x62, 0x63] := by decide +kernel
  obtain ⟨⟨read, r⟩, h, going, ⟨read', after⟩, next, ended, marked, stopped, left⟩ := seen
  rw [mem_toOption] at h next
  simp only at stopped
  refine ⟨read, r, read', after, h, by decide, next, going, ended, marked, stopped, left, ?_⟩
  rw [stopped]
  decide

end TcpStack.Reassembler

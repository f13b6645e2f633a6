import TcpStack.Proofs.Reassembler.Delivery

/-! Histories of arbitrary pieces. They may overlap, contradict each other, go beyond what there is room for
and tell different ends; as long as the output is only read, the store stays in order and within the
capacity. -/

namespace TcpStack.Reassembler

open Outcome

def Call.readsOutput : Call → Bool
  | .push .. => true
  | .output call => call.reads

inductive Records (read : Bytes) (r : Reassembler) : Call → Bytes → Reassembler → Prop
  | push {bytes : Bytes} {index : Nat} {isEnd : Bool} {after : Reassembler}
      (h : r.push bytes index isEnd = .ok after) : Records read r (.push bytes index isEnd) read after
  | reads {call : ByteStream.Call} {output : ByteStream} {count : Nat}
      (taken : call.takes r.output = r.output.toList.take count)
      (drops : r.output.Drops count output) :
      Records read r (.output call) (read ++ r.output.toList.take count) { r with output }

/-- What is so after every call: the store is in order, the end has been told if it has come, and all that
left was read or waits. -/
structure Reached (capacity : Nat) (read : Bytes) (r : Reassembler) : Prop where
  rests : Rests r
  prompt : r.Prompt
  capacity_eq : r.capacity = capacity
  left_eq : (read ++ r.output.toList).length = r.nextIndex

variable {capacity : Nat} {read read' : Bytes} {r after : Reassembler} {call : Call} {calls : List Call}

theorem record_records (sound : r.output.Sound) (reading : call.readsOutput = true)
    (h : record (read, r) call = .ok (read', after)) : Records read r call read' after := by
  unfold Reassembler.record perform at h
  cases call with
  | push bytes index isEnd =>
    simp only [bind_eq_ok, pure_eq_ok] at h
    obtain ⟨_, ⟨pushed, hpush, rfl⟩, h⟩ := h
    cases h
    rw [Call.takes, List.append_nil]
    exact .push hpush
  | output call =>
    simp only [bind_eq_ok, pure_eq_ok] at h
    obtain ⟨_, ⟨⟨output, reply⟩, houtput, rfl⟩, h⟩ := h
    cases h
    obtain ⟨count, drops, taken⟩ := ByteStream.perform_drops sound reading houtput
    rw [Call.takes, taken]
    exact .reads taken drops

theorem reached_ofCapacity (fits : capacity < Cells.limit) : Reached capacity [] (ofCapacity capacity) :=
  ⟨rests_ofCapacity fits, prompt_ofCapacity capacity, rfl, rfl⟩

theorem Reached.push (reached : Reached capacity read r) {bytes : Bytes} {index : Nat} {isEnd : Bool}
    (h : r.push bytes index isEnd = .ok after) : Reached capacity read after := by
  obtain ⟨_, run, -, -, goes⟩ := push_delivery reached.rests h
  refine ⟨(push_rests reached.rests h).1, push_prompt reached.prompt h,
    goes.capacity_eq.trans reached.capacity_eq, ?_⟩
  rw [goes.output_eq, ← List.append_assoc, List.length_append, reached.left_eq, goes.next_eq]

theorem Reached.drops (reached : Reached capacity read r) {output : ByteStream} {count : Nat}
    (drops : r.output.Drops count output) :
    Reached capacity (read ++ r.output.toList.take count) { r with output } := by
  refine ⟨reached.rests.drops drops, reached.prompt.withOutput drops.ended_eq, reached.capacity_eq, ?_⟩
  rw [drops.toList_eq, List.append_assoc, List.take_append_drop]
  exact reached.left_eq

theorem Reached.records (reached : Reached capacity read r) (records : Records read r call read' after) :
    Reached capacity read' after := by
  cases records with
  | push h => exact reached.push h
  | reads _ drops => exact reached.drops drops

theorem history_induct {P : Bytes → Reassembler → Prop}
    (reading : ∀ call ∈ calls, call.readsOutput = true) (h : history capacity calls = .ok (read, r))
    (start : P [] (ofCapacity capacity))
    (step : ∀ call ∈ calls, ∀ read r read' after, Reached capacity read r →
      Records read r call read' after → P read r → P read' after) :
    Reached capacity read r ∧ P read r := by
  obtain ⟨fits, h⟩ := history_eq_ok h
  refine foldlM_induction (P := fun point => Reached capacity point.1 point.2 ∧ P point.1 point.2) h
    ⟨reached_ofCapacity fits, start⟩ fun call member before after recorded ⟨reached, kept⟩ => ?_
  have records := record_records reached.rests.sound (reading call member) recorded
  exact ⟨reached.records records, step call member _ _ _ _ reached records kept⟩

theorem history_reached (reading : ∀ call ∈ calls, call.readsOutput = true)
    (h : history capacity calls = .ok (read, r)) : Reached capacity read r :=
  (history_induct (P := fun _ _ => True) reading h trivial fun _ _ _ _ _ _ _ _ _ => trivial).1

/-- The pending fragments stand apart, behind a gap at the next position and within the capacity, which they
share with what waits to be read. What a push makes leave are whole fragments from the front of the store. -/
theorem history_keeps_store (reading : ∀ call ∈ calls, call.readsOutput = true)
    (h : history capacity calls = .ok (read, r)) :
    (∀ fragment ∈ r.pending, fragment.bytes ≠ []) ∧
    r.pending.Pairwise (fun fragment later => fragment.stop < later.start) ∧
    r.unassembled = Fragment.total r.pending ∧
    r.unassembled + r.output.size ≤ capacity ∧
    (∀ fragment ∈ r.pending, fragment.stop ≤ r.nextIndex + capacity) ∧
    r.output.written = r.nextIndex ∧
    (r.output.ended = false → (∀ fragment ∈ r.pending, r.nextIndex < fragment.start) ∧
      ¬r.Holds r.nextIndex ∧ ∀ i, ¬r.Holds i → r.nextIndex ≤ i) ∧
    (∀ bytes index isEnd after, r.push bytes index isEnd = .ok after →
      ∃ store gone, Stored r bytes index store ∧ store = gone ++ after.pending ∧
        after.output.toList = r.output.toList ++ gone.flatMap Fragment.bytes) ∧
    (∀ bytes index isEnd, index + bytes.length < Count.bound → r.nextIndex + capacity < Count.bound →
      ∃ after, r.push bytes index isEnd = .ok after) := by
  obtain ⟨rests, -, rfl, -⟩ := history_reached reading h
  refine ⟨rests.some, rests.apart, rests.counted, rests.budget, rests.within, rests.written,
    fun going => ⟨fun fragment member => ?_, ?_, fun i free => ?_⟩,
    fun bytes index isEnd after push => ?_, fun bytes index isEnd => push_returns bytes index isEnd rests⟩
  · have positive := List.length_pos_iff.mpr (rests.some fragment member)
    refine Nat.lt_of_le_of_ne (rests.ahead fragment member) fun here => ?_
    exact Fragment.lookup_ne_none_iff.mpr
      ⟨fragment, member, Nat.le_of_eq here.symm, by unfold Fragment.stop; omega⟩ (rests.missing going)
  · rintro (left | pending)
    · exact Nat.lt_irrefl _ left
    · exact pending (rests.missing going)
  · exact Nat.le_of_not_lt fun left => free (Or.inl left)
  · obtain ⟨store, run, stored, delivery, goes⟩ := push_delivery rests push
    obtain ⟨gone, store_eq, rfl⟩ := delivery.whole
    exact ⟨store, gone, stored, store_eq, goes.output_eq⟩

def quarrel : List Call :=
  [.push [1] 0 false, .push [5, 6, 7] 4 false, .push [9, 9] 3 false, .output (.read 1),
    .push [8] 8 true]

theorem store_of_quarrel : ∃ read r after, history 8 quarrel = .ok (read, r) ∧
    (∀ call ∈ quarrel, call.readsOutput = true) ∧ r.pending.length = 2 ∧
    r.unassembled = Fragment.total r.pending ∧
    (∀ fragment ∈ r.pending, r.nextIndex < fragment.start ∧ fragment.stop ≤ r.nextIndex + 8) ∧
    r.push [2, 3] 1 false = .ok after ∧ after.nextIndex = 7 ∧
    ∃ store gone, Stored r [2, 3] 1 store ∧ store = gone ++ after.pending ∧
      after.output.toList = r.output.toList ++ gone.flatMap Fragment.bytes := by
  have seen : ∃ point ∈ (history 8 quarrel).toOption, point.2.pending.length = 2 ∧
      point.2.output.ended = false ∧
      ∃ after ∈ (point.2.push [2, 3] 1 false).toOption, after.nextIndex = 7 := by decide +kernel
  obtain ⟨⟨read, r⟩, h, two, going, after, push, next⟩ := seen
  rw [mem_toOption] at h push
  have reading : ∀ call ∈ quarrel, call.readsOutput = true := by decide
  obtain ⟨-, -, counted, -, within, -, behind, whole, -⟩ := history_keeps_store reading h
  exact ⟨read, r, after, h, reading, two, counted,
    fun fragment member => ⟨(behind going).1 fragment member, within fragment member⟩, push, next,
    whole _ _ _ _ push⟩

end TcpStack.Reassembler

import TcpStack.Proofs.Reassembler.Marks

/-! Reassembly without fragments. In a plain map every position of the stream holds a byte or none: a piece is
written over what is there, and the run that stands at the next position leaves. A reassembler does the same,
however its fragments lie. -/

namespace TcpStack

def ByteStream.Call.asks : Call → Nat
  | .pop count | .read count => count
  | _ => 0

theorem ByteStream.Call.takes_eq (stream : ByteStream) (call : Call) :
    call.takes stream = stream.toList.take call.asks := by
  cases call <;> rfl

/-- What has left is a byte string, and `waiting` bytes at its end have not been read yet. -/
@[ext]
structure ByteMap where
  capacity : Nat
  left : Bytes := []
  waiting : Nat := 0
  pending : Nat → Option UInt8 := fun _ => none
  mark : Option Nat := none
  ended : Bool := false

namespace ByteMap

def next (m : ByteMap) : Nat := m.left.length

def count (m : ByteMap) : Nat :=
  (List.range' m.next m.capacity).countP fun i => (m.pending i).isSome

def limit (m : ByteMap) (start : Nat) : Nat :=
  min (m.capacity - (m.count + m.waiting)) (m.next + m.capacity - start)

def remaining (m : ByteMap) (bytes : Bytes) (index : Nat) : Bytes :=
  bytes.drop (max index m.next - index)

def overwrite (m : ByteMap) (start : Nat) (bytes : Bytes) : ByteMap :=
  { m with pending := fun i =>
      if start ≤ i ∧ i < start + bytes.length then bytes[i - start]? else m.pending i }

def covered (m : ByteMap) (bytes : Bytes) (index : Nat) : ByteMap :=
  m.overwrite (max index m.next) ((m.remaining bytes index).take (m.limit (max index m.next)))

def runFrom (pending : Nat → Option UInt8) : (fuel i : Nat) → Bytes
  | 0, _ => []
  | fuel + 1, i =>
    match pending i with
    | some b => b :: runFrom pending fuel (i + 1)
    | none => []

def run (m : ByteMap) : Bytes := runFrom m.pending m.capacity m.next

def advance (m : ByteMap) (run : Bytes) : ByteMap :=
  { m with
    left := m.left ++ run
    waiting := m.waiting + run.length
    pending := fun i => if m.next ≤ i ∧ i < m.next + run.length then none else m.pending i }

def deliver (m : ByteMap) : ByteMap := if m.ended then m else m.advance m.run

/-- The piece has no position that is still to leave, or none of them is inside the window. -/
def Misses (m : ByteMap) (bytes : Bytes) (index : Nat) : Prop :=
  bytes = [] ∨ index + bytes.length ≤ m.next ∨ m.next + m.capacity ≤ max index m.next

instance (m : ByteMap) (bytes : Bytes) (index : Nat) : Decidable (m.Misses bytes index) :=
  inferInstanceAs (Decidable (_ ∨ _ ∨ _))

def takeIn (m : ByteMap) (bytes : Bytes) (index : Nat) : ByteMap :=
  if m.Misses bytes index then m else (m.covered bytes index).deliver

/-- Whether an end mark on the piece counts. -/
def counts (m : ByteMap) (bytes : Bytes) (index : Nat) : Bool :=
  if index + bytes.length ≤ m.next then index + bytes.length == m.next
  else max index m.next < m.next + m.capacity &&
    (m.remaining bytes index).length ≤ m.limit (max index m.next)

def push (m : ByteMap) (bytes : Bytes) (index : Nat) (isEnd : Bool) : ByteMap :=
  let after := m.takeIn bytes index
  let mark := if isEnd && m.counts bytes index then some (index + bytes.length) else m.mark
  { after with mark, ended := m.ended || mark.any fun stop => stop ≤ after.next }

def perform (m : ByteMap) : Reassembler.Call → ByteMap
  | .push bytes index isEnd => m.push bytes index isEnd
  | .output call => { m with waiting := m.waiting - call.asks }

/-- The run is all that stands at the next position, up to a gap. -/
def IsRun (m : ByteMap) (run : Bytes) : Prop :=
  (∀ i < run.length, m.pending (m.next + i) = run[i]?) ∧ m.pending (m.next + run.length) = none

variable {m : ByteMap} {bytes : Bytes} {index : Nat}

theorem runFrom_eq {pending : Nat → Option UInt8} {run : Bytes} {fuel i : Nat}
    (stands : ∀ j < run.length, pending (i + j) = run[j]?) (gap : pending (i + run.length) = none)
    (le : run.length ≤ fuel) : runFrom pending fuel i = run := by
  -- each byte of the run takes one of the fuel, and the gap ends the recursion if the fuel does not
  induction run generalizing fuel i with
  | nil =>
    cases fuel with
    | zero => rfl
    | succ fuel =>
      rw [List.length_nil, Nat.add_zero] at gap
      rw [runFrom, gap]
  | cons b rest ih =>
    cases fuel with
    | zero => cases le
    | succ fuel =>
      have here : pending i = some b := stands 0 (Nat.zero_lt_succ _)
      have onward : runFrom pending fuel (i + 1) = rest := by
        refine ih (fun j inside => ?_) ?_ (Nat.le_of_succ_le_succ le)
        · rw [Nat.add_right_comm, Nat.add_assoc]
          exact stands (j + 1) (Nat.succ_lt_succ inside)
        · rwa [Nat.add_right_comm, Nat.add_assoc]
      rw [runFrom, here]
      exact congrArg (b :: ·) onward

theorem IsRun.run_eq {run : Bytes} (isRun : m.IsRun run) (le : run.length ≤ m.capacity) : m.run = run :=
  runFrom_eq isRun.1 isRun.2 le

theorem overwrite_nil (m : ByteMap) (start : Nat) : m.overwrite start [] = m := by
  refine ByteMap.ext rfl rfl rfl ?_ rfl rfl
  funext i
  exact if_neg fun inside => Nat.not_lt_of_le inside.1 inside.2

theorem advance_nil (m : ByteMap) : m.advance [] = m := by
  refine ByteMap.ext rfl (List.append_nil _) rfl ?_ rfl rfl
  funext i
  exact if_neg fun inside => Nat.not_lt_of_le inside.1 inside.2

theorem deliver_eq {run : Bytes} (ended : m.ended = true → run = [])
    (isRun : m.ended = false → m.IsRun run) (le : run.length ≤ m.capacity) :
    m.deliver = m.advance run := by
  unfold deliver
  split
  · rename_i closed
    rw [ended closed, advance_nil]
  · rename_i going
    rw [(isRun (Bool.eq_false_iff.mpr going)).run_eq le]

theorem covered_of_misses (misses : m.Misses bytes index) : m.covered bytes index = m := by
  have none : (m.remaining bytes index).take (m.limit (max index m.next)) = [] := by
    refine List.eq_nil_of_length_eq_zero ?_
    unfold remaining limit
    rw [List.length_take, List.length_drop]
    rcases misses with rfl | old | far
    · rw [List.length_nil]
      omega
    · omega
    · omega
  rw [covered, none, overwrite_nil]

theorem left_prefix_deliver (m : ByteMap) : m.left <+: m.deliver.left := by
  unfold deliver
  split
  · exact List.prefix_refl _
  · exact List.prefix_append _ _

theorem left_prefix_perform (m : ByteMap) (call : Reassembler.Call) :
    m.left <+: (m.perform call).left := by
  unfold perform
  split
  · rename_i bytes index isEnd
    change m.left <+: (m.takeIn bytes index).left
    unfold takeIn
    split
    · exact List.prefix_refl _
    · exact left_prefix_deliver (m.covered bytes index)
  · exact List.prefix_refl _

theorem left_prefix_foldl (m : ByteMap) (calls : List Reassembler.Call) :
    m.left <+: (calls.foldl perform m).left := by
  induction calls generalizing m with
  | nil => exact List.prefix_refl _
  | cons call rest ih => exact (left_prefix_perform m call).trans (ih (m.perform call))

end ByteMap

namespace Reassembler

open Outcome

def plain (r : Reassembler) (read : Bytes) : ByteMap where
  capacity := r.capacity
  left := read ++ r.output.toList
  waiting := r.output.size
  pending := Fragment.lookup r.pending
  mark := r.endIndex
  ended := r.output.ended

variable {capacity : Nat} {read read' bytes : Bytes} {r after : Reassembler} {index : Nat} {isEnd : Bool}
  {call : Call} {calls : List Call}

section viewing

variable (reached : Reached capacity read r)
include reached

theorem Reached.plain_next : (r.plain read).next = r.nextIndex := reached.left_eq

theorem Reached.plain_count : (r.plain read).count = r.unassembled := by
  rw [ByteMap.count, reached.plain_next, reached.rests.counted]
  exact Fragment.countP_lookup reached.rests.apart fun fragment member =>
    ⟨reached.rests.ahead fragment member, reached.rests.within fragment member⟩

theorem Reached.plain_limit (start : Nat) : (r.plain read).limit start = r.allowance start := by
  rw [ByteMap.limit, reached.plain_count, reached.plain_next]
  rfl

theorem Reached.plain_remaining (bytes : Bytes) (index : Nat) :
    (r.plain read).remaining bytes index = r.fresh bytes index := by
  rw [ByteMap.remaining, reached.plain_next]
  rfl

theorem Reached.plain_counts (bytes : Bytes) (index : Nat) :
    (r.plain read).counts bytes index = r.counts bytes index := by
  have whole : decide ((r.fresh bytes index).length ≤ r.allowance (max index r.nextIndex)) =
      ((r.taken bytes index).length == (r.fresh bytes index).length) := by
    rw [Bool.eq_iff_iff, decide_eq_true_iff, beq_iff_eq, taken, List.length_take]
    omega
  rw [ByteMap.counts, reached.plain_remaining, reached.plain_limit, reached.plain_next, whole]
  rfl

theorem Reached.plain_deliver : (r.plain read).deliver = r.plain read := by
  have stands : (r.plain read).ended = false → (r.plain read).IsRun [] := fun going =>
    ⟨nofun, (congrArg (Fragment.lookup r.pending) reached.plain_next).trans
      (reached.rests.missing going)⟩
  rw [ByteMap.deliver_eq (fun _ => rfl) stands (Nat.zero_le _), ByteMap.advance_nil]

theorem Reached.plain_covered {store : List Fragment} (stored : Stored r bytes index store) :
    (r.plain read).covered bytes index = plain { r with pending := store } read := by
  rw [ByteMap.covered, reached.plain_remaining, reached.plain_limit, reached.plain_next]
  refine ByteMap.ext rfl rfl rfl ?_ rfl rfl
  funext i
  change _ = Fragment.lookup store i
  rw [stored.lookup_eq, Fragment.byte?_or]
  rfl

theorem Reached.push_run (h : r.push bytes index isEnd = .ok after) :
    ∃ run, (r.output.ended = true → run = []) ∧
      (r.output.ended = false → ((r.plain read).covered bytes index).IsRun run) ∧
      run.length ≤ r.capacity ∧
      after.plain read = { ((r.plain read).covered bytes index).advance run with
        mark := after.endIndex, ended := after.output.ended } := by
  obtain ⟨store, run, stored, delivery, goes⟩ := push_delivery reached.rests h
  have next_eq : (plain { r with pending := store } read).next = r.nextIndex := reached.plain_next
  have size_eq := goes.size_eq
  rw [reached.plain_covered stored]
  refine ⟨run, fun ended => (delivery.eq_nil_of_ended ended).1, fun going => ⟨fun i inside => ?_, ?_⟩,
    ?_, ?_⟩
  · rw [next_eq]
    exact delivery.run_eq inside
  · rw [next_eq]
    exact delivery.missing stored.apart going
  · have budget := (reached.push h).rests.budget
    have capacity_eq := goes.capacity_eq
    omega
  · refine ByteMap.ext goes.capacity_eq ?_ size_eq ?_ rfl rfl
    · change read ++ after.output.toList = read ++ r.output.toList ++ run
      rw [goes.output_eq, List.append_assoc]
    · funext i
      change Fragment.lookup after.pending i = if _ then none else Fragment.lookup store i
      rw [next_eq]
      exact delivery.kept_eq stored.apart i

theorem Reached.plain_takeIn (h : r.push bytes index isEnd = .ok after) :
    after.plain read = { (r.plain read).takeIn bytes index with
      mark := after.endIndex, ended := after.output.ended } := by
  obtain ⟨run, ended, isRun, le, after_eq⟩ := reached.push_run h
  have delivered : ((r.plain read).covered bytes index).deliver =
      ((r.plain read).covered bytes index).advance run := ByteMap.deliver_eq ended isRun le
  rw [after_eq, ← delivered, ByteMap.takeIn]
  split
  · rename_i misses
    -- nothing of the piece is over the map, which had nothing to deliver before
    rw [ByteMap.covered_of_misses misses, reached.plain_deliver]
  · rfl

theorem Reached.plain_push (h : r.push bytes index isEnd = .ok after) :
    after.plain read = (r.plain read).push bytes index isEnd := by
  have taken := reached.plain_takeIn h
  have next_eq : ((r.plain read).takeIn bytes index).next = after.nextIndex := by
    rw [← (reached.push h).plain_next, taken]
    rfl
  rw [taken, ByteMap.push, reached.plain_counts, next_eq, push_ended reached.rests.sound reached.prompt h,
    push_endIndex reached.rests.sound h]
  rfl

theorem Reached.plain_records (records : Records read r call read' after) :
    after.plain read' = (r.plain read).perform call := by
  cases records with
  | push h => exact reached.plain_push h
  | @reads call output count taken drops =>
    have left_eq : read ++ r.output.toList.take count ++ output.toList = read ++ r.output.toList := by
      rw [drops.toList_eq, List.append_assoc, List.take_append_drop]
    have size_eq := drops.size_eq
    have taken_eq := congrArg List.length taken
    rw [ByteStream.Call.takes_eq, List.length_take, List.length_take, ByteStream.length_toList] at taken_eq
    refine ByteMap.ext rfl left_eq ?_ rfl rfl drops.ended_eq
    change output.size = r.output.size - call.asks
    omega

end viewing

theorem plain_foldl (reached : Reached capacity read r)
    (reading : ∀ call ∈ calls, call.readsOutput = true)
    (h : calls.foldlM record (read, r) = .ok (read', after)) :
    after.plain read' = calls.foldl ByteMap.perform (r.plain read) := by
  induction calls generalizing read r with
  | nil =>
    rw [List.foldlM_nil, pure_eq_ok] at h
    cases h
    rfl
  | cons call rest ih =>
    rw [List.foldlM_cons, bind_eq_ok] at h
    obtain ⟨⟨middle, next⟩, step, h⟩ := h
    have records := record_records reached.rests.sound (reading call (by simp)) step
    have onward := ih (reached.records records) (fun other member => reading other (by simp [member])) h
    rw [onward, reached.plain_records records]
    rfl

theorem plain_ofCapacity (capacity : Nat) : (ofCapacity capacity).plain [] = { capacity } :=
  ByteMap.ext rfl (ByteStream.toList_ofCapacity capacity) rfl rfl rfl rfl

/-- A reassembler is a plain map throughout its history, and every further push does to it what it does to
the map; what leaves is all that stands at the next position. What has left never changes. -/
theorem history_refines_map (reading : ∀ call ∈ calls, call.readsOutput = true)
    (h : history capacity calls = .ok (read, r)) :
    r.plain read = calls.foldl ByteMap.perform { capacity } ∧
    (r.plain read).next = r.nextIndex ∧ (r.plain read).count = r.unassembled ∧
    (∀ bytes index isEnd after, r.push bytes index isEnd = .ok after →
      after.plain read = (r.plain read).push bytes index isEnd ∧
      (r.output.ended = false → ((r.plain read).covered bytes index).IsRun
        ((r.plain read).covered bytes index).run)) ∧
    (∀ bytes index isEnd, index + bytes.length < Count.bound → r.nextIndex + capacity < Count.bound →
      ∃ after, r.push bytes index isEnd = .ok after) ∧
    (∀ (more : List Call) (read' : Bytes) (after : Reassembler),
      (∀ call ∈ more, call.readsOutput = true) →
      more.foldlM record (read, r) = .ok (read', after) →
      after.plain read' = more.foldl ByteMap.perform (r.plain read) ∧
      (read ++ r.output.toList) <+: (read' ++ after.output.toList)) := by
  have reached := history_reached reading h
  obtain ⟨fits, h⟩ := history_eq_ok h
  refine ⟨?_, reached.plain_next, reached.plain_count, fun bytes index isEnd after push =>
    ⟨reached.plain_push push, fun going => ?_⟩, fun bytes index isEnd room short => ?_,
    fun more read' after reading h => ?_⟩
  · rw [plain_foldl (reached_ofCapacity fits) reading h, plain_ofCapacity]
  · obtain ⟨run, -, isRun, le, -⟩ := reached.push_run push
    rw [(isRun going).run_eq le]
    exact isRun going
  · exact push_returns bytes index isEnd reached.rests room (by rwa [reached.capacity_eq])
  · have later := plain_foldl reached reading h
    have kept := ByteMap.left_prefix_foldl (r.plain read) more
    rw [← later] at kept
    exact ⟨later, kept⟩

def patched : List Call :=
  [.push [5, 6, 7] 4 false, .push [9, 9] 3 false, .push [1, 2] 0 false, .output (.read 1),
    .push [8, 8, 8] 8 false]

theorem map_of_patched : ∃ read r after, history 8 patched = .ok (read, r) ∧
    (∀ call ∈ patched, call.readsOutput = true) ∧ r.push [3, 4] 2 false = .ok after ∧
    (read ++ r.output.toList) <+: (read ++ after.output.toList) ∧
    read ++ after.output.toList = [1, 2, 3, 9, 9, 6, 7] ∧
    Fragment.lookup after.pending 9 = some 8 ∧ Fragment.lookup after.pending 10 = none := by
  have seen : ∃ point ∈ (history 8 patched).toOption, point.2.nextIndex = 2 := by decide +kernel
  obtain ⟨⟨read, r⟩, h, next⟩ := seen
  rw [mem_toOption] at h
  have reading : ∀ call ∈ patched, call.readsOutput = true := by decide
  obtain ⟨start, -, -, steps, returns, onward⟩ := history_refines_map reading h
  simp only at next
  obtain ⟨after, push⟩ := returns [3, 4] 2 false (by decide) (by rw [next]; decide)
  have map_eq : after.plain read =
      (patched.foldl ByteMap.perform { capacity := 8 }).push [3, 4] 2 false := by
    rw [(steps [3, 4] 2 false after push).1, start]
  have recorded : [Call.push [3, 4] 2 false].foldlM record (read, r) = .ok (read, after) := by
    rw [List.foldlM_cons, record, perform, push]
    simp [Call.takes]
  refine ⟨read, r, after, h, reading, push, (onward _ _ _ (by decide) recorded).2, ?_, ?_, ?_⟩
  · change (after.plain read).left = _
    rw [map_eq]
    decide +kernel
  · change (after.plain read).pending 9 = _
    rw [map_eq]
    decide +kernel
  · change (after.plain read).pending 10 = _
    rw [map_eq]
    decide +kernel

end Reassembler
end TcpStack

import Mathlib.Data.List.TakeDrop
import Mathlib.Data.List.TakeWhile
import TcpStack.Net.Host

/-! What is on its way to a socket, and what waiting and receiving do about it. An inbox stands in the order in which
its datagrams are due. -/

namespace TcpStack.Net.Host

variable {host after : Host} {number timeout : Nat} {due : List Arrival} {outcome : Wait} {arrival : Arrival}

theorem inbox_withInbox (host : Host) (number : Nat) (inbox : List Arrival) :
    (host.withInbox number inbox).inbox number = if number < host.sockets.length then inbox else [] := by
  unfold withInbox Host.inbox
  simp only [List.getElem?_modify_eq]
  by_cases some : number < host.sockets.length
  · simp [some]
  · simp [some]

theorem inbox_of_none (none : host.sockets.length ≤ number) : host.inbox number = [] := by
  unfold inbox
  rw [List.getElem?_eq_none none]

theorem lt_due_of_dropWhile {inbox : List Arrival} {time : Nat}
    (first : (inbox.dropWhile fun other => other.due ≤ time).head? = some arrival) : time < arrival.due := by
  have late := List.head?_dropWhile_not (fun other : Arrival => decide (other.due ≤ time)) inbox
  rw [first] at late
  simpa using late

section waiting

inductive Wakes (host : Host) (number timeout : Nat) : Host → Wait → Prop
  | readable {arrival : Arrival} (next : host.nextWithin number timeout = some arrival)
      (within : max host.clock arrival.due ≤ host.limit) :
      Wakes host number timeout { host with clock := max host.clock arrival.due } .readable
  | quiet (none : host.nextWithin number timeout = none) (within : host.clock + timeout ≤ host.limit) :
      Wakes host number timeout { host with clock := host.clock + timeout } .quiet
  | stalled (late : host.limit < host.clock + timeout) : Wakes host number timeout host .stalled

theorem nextWithin_eq_some_iff : host.nextWithin number timeout = some arrival ↔
    host.failing.receive = false ∧ host.failing.wait = false ∧ (host.inbox number).head? = some arrival ∧
      arrival.due ≤ host.clock + timeout := by
  unfold nextWithin
  cases host.failing.receive <;> cases host.failing.wait <;> simp [Option.filter_eq_some_iff]

theorem lt_due_of_nextWithin (none : host.nextWithin number timeout = none) (receives : host.failing.receive = false)
    (waits : host.failing.wait = false) :
    ∀ arrival ∈ (host.inbox number).head?, host.clock + timeout < arrival.due := by
  intro arrival first
  refine Nat.lt_of_not_le fun soon => ?_
  have found := nextWithin_eq_some_iff.mpr ⟨receives, waits, first, soon⟩
  cases none.symm.trans found

theorem wait_wakes (h : host.wait number timeout = (after, outcome)) : Wakes host number timeout after outcome := by
  unfold wait at h
  cases next : host.nextWithin number timeout with
  | none =>
    simp only [next] at h
    split at h
    · rename_i late
      cases h
      exact .stalled late
    · rename_i within
      cases h
      exact .quiet next (Nat.le_of_not_lt within)
  | some arrival =>
    have soon := (nextWithin_eq_some_iff.mp next).2.2.2
    simp only [next] at h
    split at h
    · rename_i late
      cases h
      exact .stalled (Nat.lt_of_lt_of_le late (Nat.max_le.mpr ⟨Nat.le_add_right _ _, soon⟩))
    · rename_i within
      cases h
      exact .readable next (Nat.le_of_not_lt within)

theorem Wakes.eq (wakes : Wakes host number timeout after outcome) : after = { host with clock := after.clock } := by
  cases wakes with
  | readable | quiet | stalled => rfl

end waiting

section receiving

def weight : List Arrival → Nat
  | [] => 0
  | arrival :: rest => arrival.bytes.length + weight rest

theorem weight_append (arrivals more : List Arrival) : weight (arrivals ++ more) = weight arrivals + weight more := by
  induction arrivals with
  | nil => exact (Nat.zero_add _).symm
  | cons arrival rest ih => rw [List.cons_append, weight, weight, ih, Nat.add_assoc]

def cut (arrival : Arrival) : Arrival := { arrival with bytes := arrival.bytes.take receiveSize }

theorem weight_cut_le (arrivals : List Arrival) : weight (arrivals.map cut) ≤ weight arrivals := by
  induction arrivals with
  | nil => exact Nat.le_refl 0
  | cons arrival rest ih =>
    rw [List.map_cons, weight, weight]
    exact Nat.add_le_add (List.length_take_le' _ _) ih

/-- Receiving takes the first datagrams out of an inbox, those that are due. -/
structure Receives (host : Host) (number : Nat) (taken : List Arrival) (left : Host) : Prop where
  inbox_eq : host.inbox number = taken ++ left.inbox number
  left_eq : left = { host with sockets := left.sockets }
  due : ∀ arrival ∈ taken, arrival.due ≤ host.clock
  later : host.failing.receive = false → ∀ arrival ∈ (left.inbox number).head?, host.clock < arrival.due

theorem Receives.clock_eq {taken : List Arrival} (receives : Receives host number taken after) :
    after.clock = host.clock := by rw [receives.left_eq]

theorem receiveDue_receives (h : host.receiveDue number = (due, after)) :
    ∃ taken, due = taken.map cut ∧ Receives host number taken after := by
  unfold receiveDue at h
  split at h
  · rename_i fails
    cases h
    exact ⟨[], rfl, rfl, rfl, List.forall_mem_nil _, fun works => by simp [works] at fails⟩
  simp only [List.span_eq_takeWhile_dropWhile] at h
  cases h
  refine ⟨_, rfl, ?_, rfl, ?_, fun _ => ?_⟩
  · rw [inbox_withInbox]
    by_cases some : number < host.sockets.length
    · rw [if_pos some, List.takeWhile_append_dropWhile]
    · rw [if_neg some, inbox_of_none (Nat.le_of_not_lt some)]
      rfl
  · intro arrival member
    simpa using List.mem_takeWhile_imp member
  · intro arrival first
    rw [inbox_withInbox] at first
    split at first
    · exact lt_due_of_dropWhile first
    · cases first

end receiving

section order

/-- What is due first comes first. -/
def InOrder (inbox : List Arrival) : Prop := inbox.Pairwise fun sooner later => sooner.due ≤ later.due

theorem InOrder.lt_due {inbox : List Arrival} (inOrder : InOrder inbox) {time : Nat}
    (first : ∀ arrival ∈ inbox.head?, time < arrival.due) : ∀ arrival ∈ inbox, time < arrival.due := by
  cases inbox with
  | nil => exact List.forall_mem_nil _
  | cons head rest =>
    have later := first head rfl
    refine List.forall_mem_cons.mpr ⟨later, fun arrival member => ?_⟩
    exact Nat.lt_of_lt_of_le later (List.rel_of_pairwise_cons inOrder member)

theorem InOrder.deliver (inOrder : InOrder (host.inbox number)) (arrival : Arrival) :
    InOrder ((host.deliver number arrival).inbox number) := by
  unfold Host.deliver
  simp only [List.span_eq_takeWhile_dropWhile, inbox_withInbox]
  split
  case isFalse => exact List.Pairwise.nil
  case isTrue =>
    let sooner := (host.inbox number).takeWhile fun other => other.due ≤ arrival.due
    let later := (host.inbox number).dropWhile fun other => other.due ≤ arrival.due
    have whole : sooner ++ later = host.inbox number := List.takeWhile_append_dropWhile
    have parts : InOrder (sooner ++ later) := whole ▸ inOrder
    obtain ⟨first, last, across⟩ := List.pairwise_append.mp parts
    have before : ∀ other ∈ sooner, other.due ≤ arrival.due := fun other member => by
      simpa using List.mem_takeWhile_imp member
    have behind : ∀ other ∈ later, arrival.due < other.due :=
      InOrder.lt_due last fun _ head => lt_due_of_dropWhile head
    have rest : InOrder (arrival :: later) :=
      List.pairwise_cons.mpr ⟨fun other member => (behind other member).le, last⟩
    refine List.pairwise_append.mpr ⟨first, rest, ?_⟩
    rintro other member next (_ | ⟨_, member'⟩)
    · exact before other member
    · exact across other member next member'

end order

end TcpStack.Net.Host

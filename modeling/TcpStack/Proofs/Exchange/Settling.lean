import TcpStack.Exchange.Basic
import TcpStack.Proofs.Duplex.Settling

/-! The rounds of an exchange come to rest. What the link of an exchange carries over is what goes over between
two ends, so the two fall silent in the same way. -/

namespace TcpStack.Exchange

open Duplex Outcome

def Shows (x : Exchange) (d : Duplex) : Prop :=
  ∀ side, (x.party side).connection = (d.endpoint side).connection

structure Carries (x : Exchange) (side : Side) (segments : List Segment) (d : Duplex) : Prop where
  origin : (x.party side).connection = { (d.endpoint side).connection with queued := [] }
  target : (x.party side.other).connection = (d.endpoint side.other).connection
  segments : (d.endpoint side).connection.queued = segments

@[simp] theorem party_withParty (x : Exchange) (side : Side) (p : Party) :
    (x.withParty side p).party side = p := by
  cases side <;> rfl

@[simp] theorem party_other_withParty (x : Exchange) (side : Side) (p : Party) :
    (x.withParty side p).party side.other = x.party side.other := by
  cases side <;> rfl

@[simp] theorem party_withParty_other (x : Exchange) (side : Side) (p : Party) :
    (x.withParty side.other p).party side = x.party side := by
  cases side <;> rfl

variable {x : Exchange} {d d' : Duplex} {side : Side}

def after (x : Exchange) (side : Side) (lost : Bool) (segment : Segment) : Exchange :=
  { x with carried := x.carried + 1, passages := ⟨side, lost, segment⟩ :: x.passages }

@[simp] theorem party_after (x : Exchange) (origin side : Side) (lost : Bool) (segment : Segment) :
    (x.after origin lost segment).party side = x.party side := by
  cases side <;> rfl

theorem link_withParty (x : Exchange) (side : Side) (p : Party) :
    (x.withParty side p).link = x.link ∧ (x.withParty side p).carried = x.carried := by
  cases side <;> exact ⟨rfl, rfl⟩

theorem transport_eq (x : Exchange) (side : Side) (segment : Segment) :
    x.transport side segment = if x.link.loses x.carried then return x.after side true segment
      else (x.after side false segment).act side.other (·.receive segment) := by
  unfold transport after
  cases lost : x.link.loses x.carried <;> simp

theorem act_receive {p : Party} {segment : Segment} {c : Connection}
    (received : (p.connection.segmentReceived segment).result = .ok c) (here : x.party side = p) :
    x.act side (·.receive segment) = .ok (x.withParty side { p with connection := c }) := by
  unfold act Party.receive
  simp only [here, received, ok_bind, pure_bind]
  rfl

theorem transport_carries {segment : Segment} {rest : List Segment}
    (carries : x.Carries side (segment :: rest) d)
    (h : d.pass side (x.link.loses x.carried) = .ok d') :
    ∃ y, x.transport side segment = .ok y ∧ y.Carries side rest d' ∧
      y.link = x.link ∧ y.carried = x.carried + 1 := by
  obtain ⟨origin, target, queued⟩ := carries
  have left := connection_emit queued
  rw [pass_eq queued] at h
  rw [transport_eq]
  cases lost : x.link.loses x.carried with
  | true =>
    obtain rfl : d.leave side = d' := by simpa [lost] using h
    refine ⟨_, rfl, ⟨?_, ?_, ?_⟩, rfl, rfl⟩
    · rw [party_after, origin, endpoint_leave, left]
    · rw [party_after, target, endpoint_other_leave]
    · rw [endpoint_leave, left]
  | false =>
    simp only [lost, Bool.false_eq_true, if_false, bind_eq_ok, pure_eq_ok] at h
    obtain ⟨other, performs, rfl⟩ := h
    obtain ⟨c, received, rfl⟩ := perform_segment_eq_ok.mp performs
    rw [← target, ← party_after x side side.other false segment] at received
    refine ⟨_, act_receive received rfl, ⟨?_, ?_, ?_⟩, ?_⟩
    · rw [party_withParty_other, party_after, origin, endpoint_withEndpoint_other, endpoint_leave, left]
    · rw [party_withParty, endpoint_withEndpoint]
    · rw [endpoint_withEndpoint_other, endpoint_leave, left]
    · exact link_withParty _ _ _

theorem foldlM_transport {segments : List Segment} (carries : x.Carries side segments d)
    (h : Duplex.carry x.link.loses side segments.length x.carried d = .ok d') :
    ∃ y, segments.foldlM (transport side) x = .ok y ∧ y.Carries side [] d' ∧
      y.link = x.link ∧ y.carried = x.carried + segments.length := by
  induction segments generalizing x d with
  | nil =>
    obtain rfl : d = d' := pure_eq_ok.mp h
    exact ⟨x, rfl, carries, rfl, rfl⟩
  | cons segment rest ih =>
    rw [List.length_cons, Duplex.carry, bind_eq_ok] at h
    obtain ⟨middle, passes, h⟩ := h
    obtain ⟨y, transports, carries', link_eq, carried_eq⟩ := transport_carries carries passes
    rw [← link_eq, ← carried_eq] at h
    obtain ⟨z, folds, carries'', link_eq', carried_eq'⟩ := ih carries' h
    refine ⟨z, ?_, carries'', link_eq'.trans link_eq, ?_⟩
    · rw [List.foldlM_cons, transports, ok_bind, folds]
    · rw [carried_eq', carried_eq, List.length_cons]
      omega

theorem carry_shows (shows : x.Shows d) (side : Side)
    (h : Duplex.carry x.link.loses side (d.endpoint side).connection.queued.length x.carried d =
      .ok d') :
    ∃ y, x.carry side = .ok (y, !(d.endpoint side).connection.queued.isEmpty) ∧ y.Shows d' ∧
      y.link = x.link ∧ y.carried = x.carried + (d.endpoint side).connection.queued.length := by
  have same := shows side
  obtain ⟨link_eq, carried_eq⟩ :=
    link_withParty x side { x.party side with connection := (x.party side).connection.drain.2 }
  have carries : Carries (x.withParty side { x.party side with
      connection := (x.party side).connection.drain.2 }) side
      (d.endpoint side).connection.queued d := by
    refine ⟨?_, ?_, rfl⟩
    · rw [party_withParty, ← same]
      rfl
    · rw [party_other_withParty, shows side.other]
  rw [← link_eq, ← carried_eq] at h
  obtain ⟨y, folds, ⟨origin, target, none⟩, link_eq', carried_eq'⟩ := foldlM_transport carries h
  refine ⟨y, ?_, fun direction => ?_, link_eq'.trans link_eq, carried_eq ▸ carried_eq'⟩
  · rw [← same] at folds ⊢
    unfold carry
    simp only [Connection.drain] at folds ⊢
    rw [folds]
    rfl
  · obtain rfl | rfl := direction.eq_or_eq_other side
    · rw [origin, ← none]
    · exact target

theorem settleWithin_shows {passes carried : Nat} (shows : x.Shows d)
    (h : Duplex.exchange x.link.loses passes x.carried d = .ok (d', carried)) :
    ∃ y, settleWithin passes x = .ok y ∧ y.Shows d' ∧ y.carried = carried := by
  induction passes generalizing x d with
  | zero =>
    cases h
    exact ⟨x, rfl, shows, rfl⟩
  | succ passes ih =>
    simp only [Duplex.exchange, bind_eq_ok] at h
    obtain ⟨middle, there, later, back, goesOn⟩ := h
    obtain ⟨y, carries, shows', link_eq, carried_eq⟩ := carry_shows shows .first there
    rw [← link_eq, ← carried_eq] at back
    obtain ⟨z, carries', shows'', link_eq', carried_eq'⟩ := carry_shows shows' .second back
    rw [← carried_eq, ← carried_eq', ← link_eq, ← link_eq'] at goesOn
    unfold settleWithin
    simp only [carries, carries', ok_bind]
    split
    · exact ih shows'' goesOn
    · -- nothing went over, so nothing would go over any more
      rename_i still
      simp only [Bool.or_eq_true, Bool.not_eq_true', not_or, Bool.not_eq_false,
        List.isEmpty_iff] at still
      obtain ⟨none, none'⟩ := still
      rw [none] at there
      obtain rfl : d = middle := pure_eq_ok.mp there
      rw [none'] at back
      obtain rfl : d = later := pure_eq_ok.mp back
      have silent : d.Silent := fun side => by cases side <;> assumption
      rw [exchange_of_silent _ _ _ silent] at goesOn
      cases goesOn
      exact ⟨z, rfl, shows'', rfl⟩

theorem settleWithin_settles {passes : Nat} (shows : x.Shows d) (ordered : d.InOrder) (short : d.Short)
    (enough : d.load ≤ passes) : ∃ y, settleWithin passes x = .ok y ∧
      (∀ side, (y.party side).connection.queued = []) ∧ y.carried ≤ x.carried + d.load := by
  obtain ⟨d', carried, exchanges, load_le, settles⟩ :=
    ordered.exchange_returns x.link.loses x.carried short
  obtain ⟨y, settled, shows', rfl⟩ := settleWithin_shows shows exchanges
  refine ⟨y, settled, fun side => ?_, by omega⟩
  rw [shows' side]
  exact settles enough side

end TcpStack.Exchange

import TcpStack.Proofs.Connection.Forward
import TcpStack.Proofs.UdpStream.Timeline

/-! Which event comes first. A stream tells that it is connected as soon as the SYN of its connection is
acknowledged, and what came in as soon as it has come in. So its application hears of data, or of the end of
the data, before it hears of the connection exactly if some came in while the SYN was not acknowledged. -/

namespace TcpStack

namespace Connection

open Outcome

def Unheard (c : Connection) : Prop := c.sender.state = .closed ∨ c.sender.state = .synSent

theorem unheard_iff {c : Connection} : c.Unheard ↔ c.sender.state.rank ≤ 1 := by
  unfold Unheard
  cases c.sender.state <;> simp [SendState.rank]

structure Still (c after : Connection) : Prop where
  written : after.inbound.written = c.inbound.written
  consumed : after.inbound.consumed = c.inbound.consumed
  ended : after.inbound.ended = c.inbound.ended

variable {c after : Connection} {call : Call} {reply : Reply} {segment : Segment}

theorem Still.refl (c : Connection) : Still c c := ⟨rfl, rfl, rfl⟩

theorem Parts.still (parts : Parts none c after) : Still c after := by
  refine parts.induction (P := Still c) (.refl c) fun x y part still => ?_
  cases part with
  | takes came => cases came
  | sends | flushes | replaces | kills | ages | checks | expires =>
    exact ⟨still.written, still.consumed, still.ended⟩

theorem Replies.receiver_eq (replies : Replies c after) : after.receiver = c.receiver := by
  cases replies with
  | silent | sends => rfl

theorem Handles.inflow (handles : Handles c segment after) (intact : Intact c) :
    Still c after ∨ after.inbound.consumed = c.inbound.consumed ∧ after.inbound.failed = false := by
  cases handles with
  | sleeps | passes | ends => exact Or.inl ⟨rfl, rfl, rfl⟩
  | answers _ _ _ _ replies =>
    have still := replies.parts.still
    exact Or.inl ⟨still.written, still.consumed, still.ended⟩
  | takes active _ _ _ takes replies =>
    obtain ⟨_, goes, -⟩ := takes.spec intact.inbound
    have spared := (intact.alive active).1
    refine Or.inr ?_
    unfold inbound
    rw [replies.receiver_eq]
    exact ⟨goes.consumed_eq, goes.failed_eq.trans spared⟩

theorem Call.within_of_byHand (byHand : call.byHand = true) (allows : ByteStream.Call → Bool) :
    call.within allows = true := by
  cases call with
  | connect | write | finish | abort => rfl
  | segment | tick | inbound => cases byHand

theorem Reachable.still_byHand (byHand : call.byHand = true)
    (h : (c.perform call).result = .ok (after, reply)) : Still c after := by
  cases perform_performs h with
  | connects acts | aborts acts => exact acts.parts.still
  | ticks | receives | reads => cases byHand
  | ignoresWrite | ignoresFinish => exact .refl c
  | writes _ replies | finishes replies =>
    have still := replies.parts.still
    exact ⟨still.written, still.consumed, still.ended⟩

theorem Reachable.isOpen_iff (reachable : c.Reachable ByteStream.Call.reads) :
    UdpStream.isOpen c.summary = true ↔ ¬c.Unheard ∧ c.inbound.failed = false := by
  have settled := reachable.settled
  have error : c.sender.state = .error ↔ c.inbound.failed = true := by
    rw [Sender.error_iff, ← settled.poisoned]
    rfl
  cases failed : c.inbound.failed with
  | true =>
    have state := error.mpr failed
    unfold UdpStream.isOpen summary
    simp [state]
  | false =>
    have spared : c.sender.state ≠ .error := fun state => by simp [error.mp state] at failed
    have spared' : c.receiver.state ≠ .error := fun state => by
      simp [receiver_error_iff.mp state] at failed
    have known : ¬c.Unheard → c.receiver.state ≠ .listen := by
      refine fun heard => Receiver.state_ne_listen fun unknown => ?_
      rcases (reachable.waits unknown).state with state | state | state
      · exact spared state
      · exact heard (Or.inl state)
      · exact heard (Or.inr state)
    unfold UdpStream.isOpen summary
    unfold Unheard at *
    cases sender : c.sender.state <;> cases receiver : c.receiver.state <;> simp_all

end Connection

namespace Event

def inward : Event → Bool
  | .received _ | .disconnected => true
  | .connected | .failed _ => false

end Event

namespace UdpStream

open Outcome

/-- No data, and no end of the data, is told before the connection is. -/
def ConnectFirst (told : List Event) : Prop :=
  ∀ earlier event later, told = earlier ++ event :: later → event.inward = true →
    .connected ∈ earlier

theorem connectFirst_append {told more : List Event} : ConnectFirst (told ++ more) ↔
    ConnectFirst told ∧ (.connected ∈ told ∨ ConnectFirst more) := by
  constructor
  · intro first
    refine ⟨fun earlier event later split inward => ?_, ?_⟩
    · exact first earlier event (later ++ more) (by rw [split, List.append_assoc]; rfl) inward
    by_cases connected : .connected ∈ told
    · exact Or.inl connected
    refine Or.inr fun earlier event later split inward => ?_
    have member := first (told ++ earlier) event later (by rw [split, List.append_assoc]) inward
    exact (List.mem_append.mp member).resolve_left connected
  · rintro ⟨first, rest⟩ earlier event later split inward
    rcases List.append_eq_append_iff.mp split with ⟨middle, rfl, here⟩ | ⟨middle, rfl, here⟩
    · rcases rest with connected | first'
      · exact List.mem_append_left _ connected
      · exact List.mem_append_right _ (first' middle event later here inward)
    · cases middle with
      | nil =>
        rcases rest with connected | first'
        · rwa [List.append_nil] at connected
        · cases first' [] event later here.symm inward
      | cons other middle =>
        obtain ⟨rfl, rfl⟩ := List.cons.inj here
        exact first earlier event middle rfl inward

theorem connectFirst_of_connected (later : List Event) : ConnectFirst (.connected :: later) := by
  intro earlier event rest split inward
  cases earlier with
  | nil =>
    obtain ⟨rfl, -⟩ := List.cons.inj split
    cases inward
  | cons first earlier =>
    obtain ⟨rfl, -⟩ := List.cons.inj split
    exact List.mem_cons_self

theorem connectFirst_iff_of_unconnected {told : List Event} (unconnected : .connected ∉ told) :
    ConnectFirst told ↔ ∀ event ∈ told, event.inward = false := by
  constructor
  · intro first event member
    obtain ⟨earlier, later, rfl⟩ := List.append_of_mem member
    by_contra inward
    have connected := first earlier event later rfl (Bool.not_eq_false _ ▸ inward)
    exact unconnected (List.mem_append_left _ connected)
  · intro outward earlier event later split inward
    rw [outward event (split ▸ List.mem_append_right _ List.mem_cons_self)] at inward
    cases inward

variable {handed told : List Event} {gained : Bytes} {st base after : UdpStream} {c c' : Connection}
  {call : Connection.Call} {reply : Reply} {moments : List Moment} {clock : Nat}

theorem connectFirst_news (untold : st.connectTold = false) : ConnectFirst (st.news c) ↔
    isOpen c.summary = true ∨
      c.inbound.isEmpty = true ∧ (st.disconnectTold = true ∨ c.ends = false) := by
  unfold news
  rw [untold]
  cases opens : isOpen c.summary with
  | true =>
    simp only [Bool.not_false, Bool.and_self, if_true, List.cons_append,
      true_or, iff_true]
    exact connectFirst_of_connected _
  | false =>
    rw [connectFirst_iff_of_unconnected]
    · cases c.inbound.isEmpty <;> cases st.disconnectTold <;> cases c.ends <;>
        cases st.failureTold <;> cases c.cause <;> simp [Event.inward]
    · cases c.inbound.isEmpty <;> cases st.disconnectTold <;> cases c.ends <;>
        cases st.failureTold <;> cases c.cause <;> simp

/-- Something came in while the SYN of the connection was not acknowledged. -/
def Early (st : UdpStream) : Prop :=
  ∃ c, st.connection = some c ∧ c.Unheard ∧ (0 < c.inbound.written ∨ c.inbound.ended = true)

def Heard (st : UdpStream) : Prop :=
  st.connectTold = true → ∀ c, st.connection = some c → ¬c.Unheard

/-- What is known of the connection before a call from outside: what it has, the stream has told. -/
structure Awaits (st base : UdpStream) (c : Connection) : Prop where
  reachable : c.Reachable ByteStream.Call.reads
  same : base.connectTold = st.connectTold ∧ base.disconnectTold = st.disconnectTold ∧
    base.events = st.events
  empty : c.inbound.toList = []
  told : st.disconnectTold = true → c.inbound.ended = true
  quiet : ¬Early st → c.Unheard → c.inbound.written = 0 ∧ c.inbound.ended = false
  heard : Heard st → st.connectTold = true → ¬c.Unheard

theorem inbound_of_new {peer : Net.Address} (made : st.newConnection peer clock = .ok c) :
    c.inbound.written = 0 ∧ c.inbound.ended = false := by
  obtain ⟨_, rfl, -⟩ := newConnection_eq_ok made
  exact ⟨rfl, rfl⟩

theorem CaughtUp.awaits (caughtUp : CaughtUp handed gained st) (comes : Comes st clock base c call) :
    Awaits st base c := by
  have reachable := comes.reachable caughtUp
  cases comes with
  | segment found | time found =>
    obtain ⟨narrates, empty⟩ := caughtUp.narrates c found
    refine ⟨reachable, ⟨rfl, rfl, rfl⟩, empty, fun told => (narrates.closed told).1, fun late unheard => ?_,
      fun heard told => heard told c found⟩
    by_contra some
    refine late ⟨c, found, unheard, ?_⟩
    rcases Nat.eq_zero_or_pos c.inbound.written with none | positive
    · exact Or.inr (by simpa [none] using some)
    · exact Or.inl positive
  | opening alone _ made =>
    obtain ⟨-, -, connectTold, disconnectTold, -⟩ := caughtUp.alone alone
    obtain ⟨-, -, empty⟩ := caughtUp.opens alone made
    exact ⟨reachable, ⟨rfl, rfl, rfl⟩, empty, fun told => by simp [disconnectTold] at told,
      fun _ _ => inbound_of_new made, fun _ told => by simp [connectTold] at told⟩

theorem unheard_before (reachable : c.Reachable ByteStream.Call.reads)
    (within : call.within ByteStream.Call.reads = true)
    (performs : (c.perform call).result = .ok (c', reply)) (unheard : c'.Unheard) : c.Unheard := by
  rw [Connection.unheard_iff] at unheard ⊢
  exact Nat.le_trans (reachable.forward within performs).sender unheard

theorem consumed_eq_written (sound : c.inbound.Sound) (empty : c.inbound.toList = []) :
    c.inbound.consumed = c.inbound.written := by
  have counted : c.inbound.written = c.inbound.consumed + c.inbound.size := sound.counted
  have size_eq : c.inbound.size = 0 := by rw [← ByteStream.length_toList, empty, List.length_nil]
  omega

theorem Comes.inflow (comes : Comes st clock base c call) (intact : c.Intact)
    (performs : (c.perform call).result = .ok (c', reply)) :
    c.Still c' ∨ c'.inbound.consumed = c.inbound.consumed ∧ c'.inbound.failed = false := by
  cases comes with
  | segment | opening =>
    cases Connection.perform_performs performs with
    | receives _ handles => exact handles.inflow intact
  | time =>
    cases Connection.perform_performs performs with
    | ticks _ ticks => exact Or.inl ticks.parts.still

section telling

variable {output : ByteStream} {count : Nat}

theorem early_telling (drops : c'.inbound.Drops c'.inbound.size output) :
    Early (base.telling { c' with queued := c'.queued.drop count } output) ↔
      c'.Unheard ∧ (0 < c'.inbound.written ∨ c'.inbound.ended = true) := by
  have written_eq := drops.written_eq
  have ended_eq := drops.ended_eq
  constructor
  · rintro ⟨_, ⟨rfl⟩, unheard, came⟩
    exact ⟨unheard, came.imp (written_eq ▸ ·) (ended_eq ▸ ·)⟩
  · rintro ⟨unheard, came⟩
    exact ⟨_, rfl, unheard, came.imp (written_eq.symm ▸ ·) (ended_eq.symm ▸ ·)⟩

theorem Awaits.first_iff (awaits : Awaits st base c) (comes : Comes st clock base c call)
    (performs : (c.perform call).result = .ok (c', reply))
    (drops : c'.inbound.Drops c'.inbound.size output) (late : ¬Early st)
    (untold : st.connectTold = false) :
    ConnectFirst (base.news { c' with queued := c'.queued.drop count }) ↔
      ¬Early (base.telling { c' with queued := c'.queued.drop count } output) := by
  have reachable' := (awaits.reachable.called (comes.within _) performs).emitted count
  have intact' := reachable'.settled.intact
  have counted : c'.inbound.written = c'.inbound.consumed + c'.inbound.size := intact'.inbound.counted
  have intact := awaits.reachable.settled.intact
  have spent := consumed_eq_written intact.inbound awaits.empty
  have inflow := comes.inflow intact performs
  have consumed_eq : c'.inbound.consumed = c.inbound.consumed :=
    inflow.elim Connection.Still.consumed And.left
  rw [connectFirst_news (awaits.same.1.trans untold), early_telling drops, reachable'.isOpen_iff,
    awaits.same.2.1]
  change ¬c'.Unheard ∧ c'.inbound.failed = false ∨ (c'.inbound.size == 0) = true ∧
    (st.disconnectTold = true ∨ (c'.inbound.ended && !c'.inbound.failed) = false) ↔ _
  rw [beq_iff_eq]
  constructor
  · rintro (⟨heard, -⟩ | ⟨empty, quiet⟩) ⟨unheard, came⟩
    · exact heard unheard
    obtain ⟨none, going⟩ :=
      awaits.quiet late (unheard_before awaits.reachable (comes.within _) performs unheard)
    rcases came with positive | ended
    · omega
    rcases quiet with told | failed
    · simp [awaits.told told] at going
    · -- a connection that has failed is not one whose SYN waits to be acknowledged
      have failed : c'.inbound.failed = true := by simpa [ended] using failed
      have error : c'.sender.state = .error :=
        Sender.error_iff.mpr (reachable'.settled.poisoned.trans failed)
      rcases unheard with state | state <;> simp [error] at state
  · intro intime
    cases failed : c'.inbound.failed with
    | true =>
      have still := inflow.resolve_right fun spared => by simp [failed] at spared
      have written_eq := still.written
      exact Or.inr ⟨by omega, Or.inr (by simp)⟩
    | false =>
      by_cases unheard : c'.Unheard
      · have nothing : ¬(0 < c'.inbound.written ∨ c'.inbound.ended = true) :=
          fun came => intime ⟨unheard, came⟩
        rw [not_or, Bool.not_eq_true] at nothing
        exact Or.inr ⟨by omega, Or.inr (by simp [nothing.2])⟩
      · exact Or.inl ⟨unheard, rfl⟩

theorem Awaits.heard_telling (awaits : Awaits st base c) (comes : Comes st clock base c call)
    (performs : (c.perform call).result = .ok (c', reply)) (heard : Heard st) :
    Heard (base.telling { c' with queued := c'.queued.drop count } output) := by
  have reachable' := (awaits.reachable.called (comes.within _) performs).emitted count
  rintro told _ ⟨rfl⟩ unheard
  rcases Bool.or_eq_true_iff.mp told with before | opens
  · exact awaits.heard heard (awaits.same.1 ▸ before)
      (unheard_before awaits.reachable (comes.within _) performs unheard)
  · exact (reachable'.isOpen_iff.mp opens).1 unheard

end telling

theorem CaughtUp.connected_iff (caughtUp : CaughtUp handed gained st) :
    .connected ∈ handed ++ st.events ↔ st.connectTold = true := by
  have counted : (handed ++ st.events).count .connected = st.connectTold.toNat := by
    rcases Option.eq_none_or_eq_some st.connection with alone | ⟨c, found⟩
    · obtain ⟨silent, -, untold, -⟩ := caughtUp.alone alone
      rw [silent, untold]
      rfl
    · exact (caughtUp.narrates c found).1.orderly.connected
  rw [← List.count_pos_iff, counted]
  cases st.connectTold <;> decide

structure Orders (handed told : List Event) (st after : UdpStream) : Prop where
  grows : ConnectFirst (handed ++ told ++ after.events) → ConnectFirst (handed ++ st.events)
  first_iff : ¬Early st → (ConnectFirst (handed ++ told ++ after.events) ↔
    ConnectFirst (handed ++ st.events) ∧ ¬Early after)
  heard : Heard after

theorem orders_of_silent (silent : told ++ after.events = st.events)
    (early : Early after → Early st) (heard : Heard after) : Orders handed told st after := by
  have same : handed ++ told ++ after.events = handed ++ st.events := by
    rw [List.append_assoc, silent]
  refine ⟨fun first => same ▸ first, fun late => ?_, heard⟩
  rw [same]
  exact ⟨fun first => ⟨first, late ∘ early⟩, And.left⟩

theorem CaughtUp.orders (caughtUp : CaughtUp handed gained st) (heard : Heard st)
    (deed : Deed st clock told after) : Orders handed told st after := by
  cases deed with
  | nothing | idles => exact orders_of_silent rfl id heard
  | hands next => exact orders_of_silent next.symm id heard
  | opens alone made performs =>
    have still := Connection.Reachable.still_byHand rfl performs
    obtain ⟨written, ended⟩ := inbound_of_new made
    obtain ⟨-, -, untold, -⟩ := caughtUp.alone alone
    refine orders_of_silent rfl ?_ fun told => ?_
    · rintro ⟨_, ⟨rfl⟩, -, came⟩
      have came : 0 < _ ∨ _ = true := came.imp (still.written ▸ ·) (still.ended ▸ ·)
      simp [written, ended] at came
    · exact absurd (untold.symm.trans told) Bool.false_ne_true
  | sends found byHand performs =>
    have still := Connection.Reachable.still_byHand byHand performs
    have within := Connection.Call.within_of_byHand byHand ByteStream.Call.reads
    have before := unheard_before (caughtUp.reachable found) within performs
    refine orders_of_silent rfl ?_ ?_
    · rintro ⟨_, ⟨rfl⟩, unheard, came⟩
      exact ⟨_, found, before unheard, came.imp (still.written ▸ ·) (still.ended ▸ ·)⟩
    · rintro told _ ⟨rfl⟩ unheard
      exact heard told _ found (before unheard)
  | @tells base c c' _ _ count output comes performs drops =>
    have awaits := caughtUp.awaits comes
    have heard' : Heard (base.telling { c' with queued := c'.queued.drop count } output) :=
      awaits.heard_telling comes performs heard
    have split : handed ++ [] ++ (base.telling { c' with queued := c'.queued.drop count } output).events =
        handed ++ st.events ++ base.news { c' with queued := c'.queued.drop count } := by
      rw [List.append_nil, List.append_assoc, ← awaits.same.2.2]
      rfl
    refine ⟨fun first => ?_, fun late => ?_, heard'⟩
    · rw [split, connectFirst_append] at first
      exact first.1
    rw [split, connectFirst_append, caughtUp.connected_iff]
    refine and_congr_right fun _ => ?_
    by_cases told : st.connectTold = true
    · have told' : (base.telling { c' with queued := c'.queued.drop count } output).connectTold = true :=
        Bool.or_eq_true_iff.mpr (Or.inl (awaits.same.1.trans told))
      refine iff_of_true (Or.inl told) ?_
      rintro ⟨c, found, unheard, -⟩
      exact heard' told' c found unheard
    · rw [← awaits.first_iff comes performs drops late (Bool.eq_false_iff.mpr told)]
      exact or_iff_right told

theorem connectFirst_nil : ConnectFirst [] := by
  intro earlier event later split
  cases earlier <;> cases split

structure Ordered (moments : List Moment) (st : UdpStream) : Prop where
  heard : Heard st
  early : Early st → ∃ m ∈ moments, Early m.after
  first_iff : ConnectFirst (toldIn moments ++ st.events) ↔ ∀ m ∈ moments, ¬Early m.after

theorem Lived.ordered (lived : Lived moments st clock) : Ordered moments st := by
  refine lived.induct (P := fun moments st _ => Ordered moments st) ?_ (fun _ _ _ _ _ same => same) ?_
  · intro config address host st host' binds
    obtain ⟨caughtUp, alone⟩ := caughtUp_of_bindAt binds
    have silent : toldIn [] ++ st.events = [] := (caughtUp.alone alone).1
    refine ⟨fun _ c found => ?_, fun ⟨c, found, _⟩ => ?_, ?_⟩
    · cases alone.symm.trans found
    · cases alone.symm.trans found
    · rw [silent]
      exact iff_of_true connectFirst_nil (by simp)
  · rintro moments gained st clock told after caughtUp deed ⟨heard, early, first⟩
    have orders := caughtUp.orders heard deed
    refine ⟨orders.heard, fun now => ⟨_, List.mem_concat_self, now⟩, ?_⟩
    rw [toldIn_append, toldIn_singleton]
    by_cases now : Early st
    · obtain ⟨m, member, late⟩ := early now
      refine iff_of_false (fun first' => ?_) fun none => ?_
      · exact first.mp (orders.grows first') m member late
      · exact none m (List.mem_append_left _ member) late
    · rw [orders.first_iff now, first]
      simp [or_imp, forall_and]

/-- The application hears of the connection before it hears of data, or of the end of the data, exactly if
no moment left the SYN of the connection unacknowledged after something had come in. Every request goes on
with the life of the stream, so this holds whatever is asked of it. -/
theorem connect_first_iff (lived : Lived moments st clock) :
    (ConnectFirst (toldIn moments ++ st.events) ↔ ∀ m ∈ moments, ¬Early m.after) ∧
    ∀ host request events after host', host.clock = clock →
      st.ask host request = .ok (events, after, host') →
      ∃ more, Lived (moments ++ more) after host'.clock ∧ toldIn more = events := by
  refine ⟨lived.ordered.first_iff, ?_⟩
  rintro host request events after host' rfl asks
  exact lived.ask asks

theorem first_on_visit : ∃ moments st, Lived moments st 0 ∧
    toldIn moments = [.connected, .received [97, 98, 99]] ∧ st.events = [] ∧
    ∀ m ∈ moments, ¬Early m.after := by
  have seen : (fun (events, st, host) => (events, st.events, host.clock)) <$> inn.ask (station (
      [{ syn := true, seqno := ⟨5000⟩, window := 100 },
        { ack := true, seqno := ⟨5001⟩, ackno := ⟨1001⟩, window := 100, payload := [97, 98, 99] }].map
        fun segment => ⟨0, ⟨.v4 10 0 0 9, 9000⟩, Segment.toFrame segment⟩)) .pollAll =
      .ok ([.connected, .received [97, 98, 99]], [], 0) := by
    decide +kernel
  obtain ⟨⟨events, st, host⟩, asks, look⟩ := map_eq_ok.mp seen
  simp only [Prod.mk.injEq] at look
  obtain ⟨rfl, none, clock_eq⟩ := look
  obtain ⟨moments, lived, told_eq⟩ := (connect_first_iff lived_inn).2 _ _ _ _ _ rfl asks
  rw [clock_eq, List.nil_append] at lived
  refine ⟨moments, st, lived, told_eq, none, (connect_first_iff lived).1.mp ?_⟩
  rw [told_eq, none, List.append_nil]
  exact connectFirst_of_connected _

/-- A peer opens with a SYN that brings three bytes: they are told, and there is no connection yet. -/
theorem data_told_before_connection : ∃ moments st, Lived moments st 0 ∧
    toldIn moments ++ st.events = [.received [97, 98, 99]] ∧
    ¬ConnectFirst (toldIn moments ++ st.events) := by
  have seen : (fun (events, st, host) => (events, st.events, host.clock)) <$> inn.ask (station
      [⟨0, ⟨.v4 10 0 0 9, 9000⟩, Segment.toFrame
        { syn := true, seqno := ⟨5000⟩, window := 100, payload := [97, 98, 99] }⟩]) .pollAll =
      .ok ([.received [97, 98, 99]], [], 0) := by
    decide +kernel
  obtain ⟨⟨events, st, host⟩, asks, look⟩ := map_eq_ok.mp seen
  simp only [Prod.mk.injEq] at look
  obtain ⟨rfl, none, clock_eq⟩ := look
  obtain ⟨moments, lived, told_eq⟩ := lived_inn.ask asks
  rw [clock_eq, List.nil_append] at lived
  have told : toldIn moments ++ st.events = [.received [97, 98, 99]] := by
    rw [told_eq, none, List.append_nil]
  refine ⟨moments, st, lived, told, fun first => ?_⟩
  rw [told] at first
  cases first [] _ [] rfl rfl

end UdpStream
end TcpStack

import TcpStack.Proofs.Connection.Line
import TcpStack.Proofs.Connection.Naming
import TcpStack.Proofs.Connection.Timing
import TcpStack.Proofs.Sender.Numbering

/-! What a connection does with its sender. It only calls it, and moves what the sender queues into its own queue,
stamped and in order; so the sender of a connection is one that can come about on its own, and what a call puts into
the queue is what the sender said while it was dealt with. Only an RST of the connection's own takes the place of
that. -/

namespace TcpStack.Connection

open Outcome Segment

variable {allows : ByteStream.Call → Bool} {timeout top : Nat} {c middle after : Connection}
  {incoming : Segment} {call : Call} {reply : Reply} {asked more : List Sender.Call} {elapsed : Nat}

/-- Asked in this way, one call after the other, the sender becomes that one. No time passes, and no acknowledgment
goes past `top`. -/
structure Works (top : Nat) (s : Sender) (asked : List Sender.Call) (after : Sender) : Prop where
  asks : ∃ done, s.record asked = .ok (done, after)
  timeless : ∀ call ∈ asked, call.ticks = false
  acked : s.highestAck ≤ top → after.highestAck ≤ top

/-- The connection has asked this of its sender, and all that the sender has said then is queued, with the
acknowledgment fields filled in. -/
inductive Relays (top : Nat) (c : Connection) (asked : List Sender.Call) (after : Connection) : Prop
  | moves {sender : Sender} {stamped : List Segment} (works : Works top c.sender asked sender)
      (stamps : sender.queued.mapM after.receiver.stamp = .ok stamped)
      (sender_eq : after.sender = { sender with queued := [] }) (queued_eq : after.queued = c.queued ++ stamped)

section works

variable {s sender : Sender}

theorem Works.refl (top : Nat) (s : Sender) : Works top s [] s := ⟨⟨[], rfl⟩, List.forall_mem_nil _, id⟩

theorem Works.trans {between : Sender} (first : Works top s asked between) (second : Works top between more sender) :
    Works top s (asked ++ more) sender := by
  obtain ⟨_, asks⟩ := first.asks
  obtain ⟨_, asks'⟩ := second.asks
  exact ⟨⟨_, Sender.record_append asks asks'⟩, List.forall_mem_append.mpr ⟨first.timeless, second.timeless⟩,
    second.acked ∘ first.acked⟩

theorem works_of_call {ask : Sender.Call} (h : (s.perform ask).result = .ok (sender, reply))
    (timeless : ask.ticks = false) (acked : s.highestAck ≤ top → sender.highestAck ≤ top) :
    Works top s [ask] sender :=
  ⟨⟨_, Sender.record_singleton h⟩, List.forall_mem_singleton.mpr timeless, acked⟩

theorem works_of_fill (h : s.fillWindow.result = .ok sender) : Works top s [.fill] sender := by
  obtain ⟨_, launches⟩ := Sender.fillWindow_launches h
  have fills : (s.perform .fill).result = .ok (sender, .done) := by simp [Sender.perform, h]
  exact works_of_call fills rfl (Nat.le_of_eq launches.highestAck_eq).trans

theorem works_of_reply (top : Nat) (s : Sender) : Works top s [.sendEmpty] s.sendEmpty :=
  works_of_call (show (s.perform .sendEmpty).result = .ok (s.sendEmpty, .done) from rfl) rfl id

theorem works_of_stream {change : ByteStream.Call} {stream : ByteStream}
    (h : s.stream.perform change = .ok (stream, reply)) : Works top s [.stream change] { s with stream } := by
  have changes : (s.perform (.stream change)).result = .ok ({ s with stream }, reply) := by simp [Sender.perform, h]
  exact works_of_call changes rfl id

theorem Hearing.works (hears : Hearing s incoming asked sender) : Works s.nextSeqno s asked sender := by
  cases hears with
  | nothing => exact .refl _ _
  | @acknowledgment _ legal _ hears =>
    have performs : (s.perform (.ack incoming.ackno incoming.window)).result = .ok (sender, .verdict legal) := by
      simp [Sender.perform, hears]
    refine works_of_call performs rfl fun le => ?_
    rcases Sender.ackReceived_launches hears with rfl | ⟨_, _, heeds, launches⟩
    · exact le
    · rw [launches.highestAck_eq]
      cases heeds with
      | again => exact le
      | moves _ _ sent hadvance =>
        obtain ⟨_, _, _, _, _, rfl⟩ := Sender.advance_eq_ok hadvance
        exact sent

theorem Hearing.silent (hears : Hearing s incoming asked sender) (reachable : s.Reachable timeout)
    (empty : s.queued = []) (none : sender.inFlight = 0) : sender.queued = [] := by
  cases hears with
  | nothing => exact empty
  | acknowledgment _ hears =>
    rcases Sender.ackReceived_launches hears with rfl | ⟨_, _, heeds, launches⟩
    · exact empty
    have contiguous := ((reachable.books.heeds heeds).launches launches).contiguous
    rw [none, Nat.sub_zero] at contiguous
    cases launches with
    | nothing => exact heeds.queued_eq.trans empty
    | @next _ middle _ segment _ launch rest =>
      have first : { endSeqno := _, segment } ∈ middle.outstanding :=
        launch.sends.inFlight_eq ▸ List.mem_append_right _ List.mem_cons_self
      have inside := contiguous.mem (rest.front.subset first)
      omega

end works

section relays

variable {sender : Sender}

theorem relays_of_empty (works : Works top c.sender asked after.sender) (empty : after.sender.queued = [])
    (queued_eq : after.queued = c.queued) : Relays top c asked after := by
  have nothing : after.sender.queued.mapM after.receiver.stamp = .ok [] := by
    rw [empty]
    rfl
  exact .moves works nothing (by rw [← empty]) (queued_eq.trans (List.append_nil _).symm)

theorem relays_of_same (empty : c.sender.queued = []) (sender_eq : after.sender = c.sender)
    (queued_eq : after.queued = c.queued) : Relays top c [] after :=
  relays_of_empty (sender_eq ▸ .refl _ _) (sender_eq ▸ empty) queued_eq

theorem Flushes.relays (flushes : Flushes { c with sender } after) (works : Works top c.sender asked sender) :
    Relays top c asked after := by
  cases flushes with
  | moves stamps => exact .moves works stamps rfl rfl

theorem Relays.prepend (relays : Relays top middle more after) (works : Works top c.sender asked middle.sender)
    (queued_eq : middle.queued = c.queued) : Relays top c (asked ++ more) after := by
  cases relays with
  | moves works' stamps sender_eq queued_eq' =>
    exact .moves (works.trans works') stamps sender_eq (queued_eq ▸ queued_eq')

theorem Relays.empty (relays : Relays top c asked after) : after.sender.queued = [] := by
  cases relays with
  | moves _ _ sender_eq => rw [sender_eq]

theorem Relays.acked (relays : Relays top c asked after) (le : c.sender.highestAck ≤ top) :
    after.sender.highestAck ≤ top := by
  cases relays with
  | moves works _ sender_eq => exact sender_eq ▸ works.acked le

theorem Relays.since (relays : Relays top c asked after) (empty : c.sender.queued = []) :
    ∃ done, c.sender.Since done after.sender ∧ (∀ e ∈ done, e.call.ticks = false) ∧
      ∃ stamped, after.queued = c.queued ++ stamped ∧ stamped.map unstamped = (Sender.sent done).map unstamped := by
  cases relays with
  | @moves sender stamped works stamps sender_eq queued_eq =>
    obtain ⟨done, asks⟩ := works.asks
    have drained := (Sender.Since.start.record asks).drained sender.queued.length
    rw [List.drop_length, List.nil_append, ← sender_eq] at drained
    have said := Sender.queued_of_record asks
    rw [empty, List.nil_append] at said
    refine ⟨done, drained, fun e member => ?_, stamped, queued_eq, ?_⟩
    · refine works.timeless e.call ?_
      rw [← Sender.calls_of_record asks]
      exact List.mem_map_of_mem member
    · rw [← said]
      exact Receiver.map_unstamped_of_stamps stamps

theorem Connects.relays (connects : Connects c asked after) (empty : c.sender.queued = []) :
    Relays top c asked after := by
  cases connects with
  | settled => exact relays_of_same empty rfl rfl
  | opens _ _ fills flushes => exact flushes.relays (works_of_fill fills)

theorem Spreads.relays (spreads : Spreads c asked after) (empty : c.sender.queued = []) :
    Relays top c asked after := by
  cases spreads with
  | waits => exact relays_of_same empty rfl rfl
  | sends _ fills flushes => exact flushes.relays (works_of_fill fills)

theorem Writes.relays {bytes : Bytes} {count : Nat} (writes : Writes c bytes asked after count)
    (empty : c.sender.queued = []) : Relays top c asked after := by
  cases writes with
  | sleeps => exact relays_of_same empty rfl rfl
  | @accepts stream count _ _ _ writes spreads =>
    have changes : c.sender.stream.perform (.write bytes) = .ok (stream, .count count) := by
      simp [ByteStream.perform, writes]
    have written : Works top c.sender [.stream (.write bytes)] { c.sender with stream } := works_of_stream changes
    exact (spreads.relays empty).prepend written rfl

theorem Finishes.relays (finishes : Finishes c asked after) (empty : c.sender.queued = []) :
    Relays top c asked after := by
  cases finishes with
  | sleeps => exact relays_of_same empty rfl rfl
  | ends _ spreads =>
    have finished : Works top c.sender [.stream .finish] { c.sender with stream := c.sender.stream.finish } :=
      works_of_stream rfl
    exact (spreads.relays empty).prepend finished rfl

theorem kill_relays (empty : c.sender.queued = []) (cause : Option ResetCause) :
    Relays top c [.stream .fail] (c.kill cause) := by
  have fails : Works top c.sender [.stream .fail] { c.sender with stream := c.sender.stream.fail } :=
    works_of_stream rfl
  exact relays_of_empty fails empty rfl

theorem Acknowledges.relays (acknowledges : Acknowledges c asked after)
    (ended : c.active = false → c.sender.queued = []) : Relays top c asked after := by
  cases acknowledges with
  | ended inactive => exact relays_of_same (ended inactive) rfl rfl
  | answers _ _ flushes => exact flushes.relays (works_of_reply top c.sender)
  | sends _ _ flushes => exact Flushes.relays (c := c) flushes (.refl top c.sender)

theorem Responds.relays (responds : Responds c incoming asked after)
    (ended : c.active = false → c.sender.queued = []) : Relays top c asked after := by
  cases responds with
  | ended inactive => exact relays_of_same (ended inactive) rfl rfl
  | @answers sender _ _ fills _ _ flushes => exact flushes.relays ((works_of_fill fills).trans (works_of_reply top sender))
  | sends _ fills _ flushes => exact flushes.relays (works_of_fill fills)

theorem inFlight_of_over (active : c.active = true) (ended : c.checked.active = false) : c.sender.inFlight = 0 := by
  have ends : c.isOver = true := by simpa [checked, active] using ended
  simp only [isOver, Bool.and_eq_true, decide_eq_true_eq] at ends
  exact (Sender.finAcked_iff.mp ends.2).2.2.2

theorem ReceivesListening.relays (receives : ReceivesListening c incoming asked after)
    (empty : c.sender.queued = []) : Relays top c asked after := by
  cases receives with
  | ignores => exact relays_of_same empty rfl rfl
  | @takes receiver _ _ _ _ _ _ _ connects =>
    have taken : Works top c.sender [] (checked { c with receiver }).sender := .refl _ _
    exact (connects.relays empty).prepend taken rfl

theorem ReceivesSynSent.relays (receives : ReceivesSynSent c incoming asked after) (active : c.active = true)
    (reachable : c.sender.Reachable timeout) (empty : c.sender.queued = []) :
    Relays c.sender.nextSeqno c asked after := by
  cases receives with
  | ignoresRst | ignores => exact relays_of_same empty rfl rfl
  | ends => exact kill_relays empty _
  | @takes receiver _ sender _ _ _ _ _ _ _ hears acknowledges =>
    refine (acknowledges.relays ?_).prepend hears.works rfl
    intro inactive
    exact hears.silent reachable empty (inFlight_of_over (c := { c with receiver, sender }) active inactive)

theorem ReceivesSynchronized.relays (receives : ReceivesSynchronized c incoming asked after)
    (active : c.active = true) (reachable : c.sender.Reachable timeout) (empty : c.sender.queued = []) :
    Relays c.sender.nextSeqno c asked after := by
  cases receives with
  | ignores => exact relays_of_same empty rfl rfl
  | ends => exact kill_relays empty _
  | answers _ _ _ _ _ flushes => exact flushes.relays (works_of_reply _ c.sender)
  | @takes _ receiver _ sender _ _ _ _ _ _ _ hears _ responds =>
    refine (responds.relays ?_).prepend hears.works rfl
    intro inactive
    exact hears.silent reachable empty (inFlight_of_over (c := { c with receiver, sender }) active inactive)

theorem Receives.relays (receives : Receives c incoming asked after) (reachable : c.sender.Reachable timeout)
    (empty : c.sender.queued = []) : Relays c.sender.nextSeqno c asked after := by
  have woken {x : Connection} {asked : List Sender.Call}
      (relays : Relays c.sender.nextSeqno { c with idle := 0 } asked x) : Relays c.sender.nextSeqno c asked x :=
    relays.prepend (.refl c.sender.nextSeqno c.sender) rfl
  cases receives with
  | sleeps => exact relays_of_same empty rfl rfl
  | listening _ _ _ receives => exact woken (receives.relays empty)
  | synSent active _ _ receives => exact woken (receives.relays active reachable empty)
  | synchronized active _ receives => exact woken (receives.relays active reachable empty)

theorem Does.relays (does : Does c call asked after reply) (reachable : c.sender.Reachable timeout)
    (empty : c.sender.queued = []) : Relays c.sender.nextSeqno c asked after ∨
      asked = [] ∧ (∃ rst, Resets c none rst after) ∨ ∃ elapsed, call = .tick elapsed ∧ Elapses c elapsed after := by
  cases does with
  | ticks elapses => exact Or.inr (Or.inr ⟨_, rfl, elapses⟩)
  | connects connects => exact Or.inl (connects.relays empty)
  | receives receives => exact Or.inl (receives.relays reachable empty)
  | writes writes => exact Or.inl (writes.relays empty)
  | finishes finishes => exact Or.inl (finishes.relays empty)
  | reads => exact Or.inl (relays_of_same empty rfl rfl)
  | aborts aborts =>
    cases aborts with
    | sleeps => exact Or.inl (relays_of_same empty rfl rfl)
    | ends _ resets => exact Or.inr (Or.inl ⟨rfl, _, resets⟩)

end relays

section sender

theorem Resets.sender_eq {cause : Option ResetCause} {rst : Segment} (resets : Resets c cause rst after) :
    after.sender = { c.sender with queued := [], stream := c.sender.stream.fail } := by
  rw [resets.after_eq]
  rfl

theorem Resets.active_eq {cause : Option ResetCause} {rst : Segment} (resets : Resets c cause rst after) :
    after.active = false := by
  rw [resets.after_eq]
  rfl

theorem Resets.sender_reachable {cause : Option ResetCause} {rst : Segment} (resets : Resets c cause rst after)
    (reachable : c.sender.Reachable timeout) : after.sender.Reachable timeout := by
  have drained := reachable.drained c.sender.queued.length
  rw [List.drop_length] at drained
  have fails (s : Sender) :
      (s.perform (.stream .fail)).result = .ok ({ s with stream := s.stream.fail }, .done) := rfl
  rw [resets.sender_eq]
  exact drained.called (fails _)

theorem Elapses.sender (elapses : Elapses c elapsed after)
    (reachable : c.sender.Reachable timeout) (empty : c.sender.queued = []) :
    after.sender.Reachable timeout ∧ after.sender.queued = [] ∧ after.config = c.config := by
  have ages {aged : Sender} (ticks : (c.sender.tick elapsed).result = .ok aged) : aged.Reachable timeout := by
    have performs : (c.sender.perform (.tick elapsed)).result = .ok (aged, .done) := by simp [Sender.perform, ticks]
    exact reachable.called performs
  cases elapses with
  | sleeps => exact ⟨reachable, empty, rfl⟩
  | givesUp _ _ ticks _ resets =>
    exact ⟨resets.sender_reachable (ages ticks), by rw [resets.sender_eq], by rw [resets.after_eq]; rfl⟩
  | @goesOn aged _ _ _ ticks _ flushes =>
    have drained := (ages ticks).drained aged.queued.length
    rw [List.drop_length] at drained
    cases flushes
    exact ⟨drained, rfl, rfl⟩

theorem perform_cases (reachable : c.sender.Reachable timeout) (empty : c.sender.queued = [])
    (h : (c.perform call).result = .ok (after, reply)) :
    ((∀ elapsed, call ≠ .tick elapsed) ∧ AtOnce c after ∧
      ((∃ asked, Relays c.sender.nextSeqno c asked after) ∨ ∃ rst, Resets c none rst after)) ∨
    ∃ elapsed, call = .tick elapsed ∧ Elapses c elapsed after := by
  obtain ⟨_, does⟩ := perform_eq_ok_iff.mp h
  by_cases ticks : ∃ elapsed, call = .tick elapsed
  · obtain ⟨elapsed, rfl⟩ := ticks
    cases does with
    | ticks elapses => exact Or.inr ⟨elapsed, rfl, elapses⟩
  have timeless : ∀ elapsed, call ≠ .tick elapsed := fun elapsed same => ticks ⟨elapsed, same⟩
  refine Or.inl ⟨timeless, perform_atOnce timeless h, ?_⟩
  rcases does.relays reachable empty with relays | ⟨-, resets⟩ | ⟨elapsed, same, -⟩
  · exact Or.inl ⟨_, relays⟩
  · exact Or.inr resets
  · exact absurd same (timeless elapsed)

theorem Reachable.sender (reachable : Reachable allows c) :
    c.sender.Reachable c.config.timeout ∧ c.sender.queued = [] := by
  induction reachable with
  | @opened config isn _ opens =>
    obtain ⟨rfl, -, fits⟩ := new?_eq_ok_iff.mp opens
    have makes : Sender.create config.capacity config.timeout (config.isn.getD isn) =
        .ok (initial config isn).sender := by
      unfold Sender.create
      rw [Cells.checkSize_eq_ok_iff.mpr fits]
      rfl
    exact ⟨.made makes, rfl⟩
  | called _ _ performs ih =>
    obtain ⟨reachable, empty⟩ := ih
    rcases perform_cases reachable empty performs with
      ⟨-, once, ⟨_, relays⟩ | ⟨_, resets⟩⟩ | ⟨_, rfl, elapses⟩
    · obtain ⟨_, since, -⟩ := relays.since empty
      exact ⟨once.config_eq ▸ since.reachable reachable, relays.empty⟩
    · exact ⟨once.config_eq ▸ resets.sender_reachable reachable, by rw [resets.sender_eq]⟩
    · obtain ⟨reachable', empty', config_eq⟩ := elapses.sender reachable empty
      exact ⟨config_eq ▸ reachable', empty'⟩
  | emitted _ _ ih => exact ih

end sender

end TcpStack.Connection

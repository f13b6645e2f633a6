import TcpStack.Proofs.Connection.Reachable
import TcpStack.Proofs.Sender.Timing

/-! What a connection sends again, and when it gives up: only as time passes, and by the time that it is told
of never before the first timeout is over. -/

namespace TcpStack.Connection

open Outcome

structure AtOnce (c after : Connection) : Prop where
  sender : c.sender.Moves after.sender
  config_eq : after.config = c.config
  active : after.active = true → c.active = true
  cause : after.cause = some .timedOut → c.cause = some .timedOut

variable {c middle after : Connection} {segment : Segment} {call : Call} {reply : Reply}
  {asked : List Sender.Call}

theorem AtOnce.refl (c : Connection) : AtOnce c c := ⟨.refl _, rfl, id, id⟩

theorem AtOnce.trans (first : AtOnce c middle) (second : AtOnce middle after) : AtOnce c after :=
  ⟨first.sender.trans second.sender, second.config_eq.trans first.config_eq,
    first.active ∘ second.active, first.cause ∘ second.cause⟩

section atOnce

theorem atOnce_of_moves {sender : Sender} (moves : c.sender.Moves sender) :
    AtOnce c { c with sender } := ⟨moves, rfl, id, id⟩

theorem atOnce_turns (c : Connection) (stream : ByteStream) (queued : List Segment) :
    AtOnce c { c with sender := { c.sender with stream, queued } } :=
  atOnce_of_moves (Sender.Move.turns stream queued).moves

theorem atOnce_checked (c : Connection) : AtOnce c c.checked :=
  ⟨.refl _, rfl, fun active => (Bool.and_eq_true_iff.mp active).1, id⟩

theorem atOnce_kill (c : Connection) {cause : Option ResetCause} (other : cause ≠ some .timedOut) :
    AtOnce c (c.kill cause) :=
  ⟨(Sender.Move.turns _ c.sender.queued).moves, rfl, fun active => absurd active Bool.false_ne_true,
    fun same => absurd same other⟩

theorem Flushes.atOnce (flushes : Flushes c after) : AtOnce c after := by
  cases flushes
  exact ⟨(Sender.Move.turns c.sender.stream []).moves, rfl, id, id⟩

theorem Flushes.atOnce_of_moves {sender : Sender} (flushes : Flushes { c with sender } after)
    (moves : c.sender.Moves sender) : AtOnce c after :=
  (Connection.atOnce_of_moves moves).trans flushes.atOnce

theorem Resets.atOnce {cause : Option ResetCause} {rst : Segment} (resets : Resets c cause rst after)
    (other : cause ≠ some .timedOut) : AtOnce c after := by
  rw [resets.after_eq]
  have drained : AtOnce c
      { c with sender := { c.sender with queued := [] }, queued := c.queued ++ [rst] } :=
    ⟨(Sender.Move.turns c.sender.stream []).moves, rfl, id, id⟩
  exact drained.trans (atOnce_kill _ other)

theorem Connects.atOnce (connects : Connects c asked after) : AtOnce c after := by
  cases connects with
  | settled => exact .refl c
  | opens _ _ fills flushes => exact flushes.atOnce_of_moves (Sender.fillWindow_moves fills)

theorem Spreads.atOnce (spreads : Spreads c asked after) : AtOnce c after := by
  cases spreads with
  | waits => exact .refl c
  | sends _ fills flushes => exact flushes.atOnce_of_moves (Sender.fillWindow_moves fills)

theorem Writes.atOnce {bytes : Bytes} {count : Nat} (writes : Writes c bytes asked after count) :
    AtOnce c after := by
  cases writes with
  | sleeps => exact .refl c
  | accepts _ _ spreads => exact (atOnce_turns c _ c.sender.queued).trans spreads.atOnce

theorem Finishes.atOnce (finishes : Finishes c asked after) : AtOnce c after := by
  cases finishes with
  | sleeps => exact .refl c
  | ends _ spreads => exact (atOnce_turns c _ c.sender.queued).trans spreads.atOnce

theorem Hearing.moves {s sender : Sender} (hears : Hearing s segment asked sender) : s.Moves sender := by
  cases hears with
  | nothing => exact .refl _
  | acknowledgment _ hears => exact Sender.ackReceived_moves hears

theorem Acknowledges.atOnce (acknowledges : Acknowledges c asked after) : AtOnce c after := by
  cases acknowledges with
  | ended => exact .refl c
  | answers _ _ flushes => exact (atOnce_turns c c.sender.stream _).trans flushes.atOnce
  | sends _ _ flushes => exact flushes.atOnce

theorem Responds.atOnce (responds : Responds c segment asked after) : AtOnce c after := by
  cases responds with
  | ended => exact .refl c
  | @answers sender _ _ fills _ _ flushes =>
    have filled : AtOnce c { c with sender } := atOnce_of_moves (Sender.fillWindow_moves fills)
    exact (filled.trans (atOnce_turns { c with sender } sender.stream _)).trans flushes.atOnce
  | sends _ fills _ flushes => exact flushes.atOnce_of_moves (Sender.fillWindow_moves fills)

theorem intake_atOnce {sender : Sender} (moves : c.sender.Moves sender) (receiver : Receiver) :
    AtOnce c (checked { c with receiver, sender }) := by
  have taken : AtOnce c { c with receiver, sender } := ⟨moves, rfl, id, id⟩
  exact taken.trans (atOnce_checked _)

theorem ReceivesListening.atOnce (receives : ReceivesListening c segment asked after) : AtOnce c after := by
  cases receives with
  | ignores => exact .refl c
  | takes _ _ _ _ connects => exact (intake_atOnce (.refl _) _).trans connects.atOnce

theorem ReceivesSynSent.atOnce (receives : ReceivesSynSent c segment asked after) : AtOnce c after := by
  cases receives with
  | ignoresRst | ignores => exact .refl c
  | ends => exact atOnce_kill c (by decide)
  | takes _ _ _ _ hears acknowledges => exact (intake_atOnce hears.moves _).trans acknowledges.atOnce

theorem ReceivesSynchronized.atOnce (receives : ReceivesSynchronized c segment asked after) : AtOnce c after := by
  cases receives with
  | ignores => exact .refl c
  | ends => exact atOnce_kill c (by decide)
  | answers _ _ _ _ _ flushes => exact (atOnce_turns c c.sender.stream _).trans flushes.atOnce
  | takes _ _ _ _ hears _ responds => exact (intake_atOnce hears.moves _).trans responds.atOnce

theorem Receives.atOnce (receives : Receives c segment asked after) : AtOnce c after := by
  have woken : AtOnce c { c with idle := 0 } := ⟨.refl _, rfl, id, id⟩
  cases receives with
  | sleeps => exact .refl c
  | listening _ _ _ receives => exact woken.trans receives.atOnce
  | synSent _ _ _ receives => exact woken.trans receives.atOnce
  | synchronized _ _ receives => exact woken.trans receives.atOnce

theorem perform_atOnce (timeless : ∀ elapsed, call ≠ .tick elapsed)
    (h : (c.perform call).result = .ok (after, reply)) : AtOnce c after := by
  obtain ⟨_, does⟩ := perform_eq_ok_iff.mp h
  cases does with
  | ticks => exact absurd rfl (timeless _)
  | connects connects => exact connects.atOnce
  | aborts aborts =>
    cases aborts with
    | sleeps => exact .refl c
    | ends _ resets => exact resets.atOnce (by decide)
  | receives receives => exact receives.atOnce
  | writes writes => exact writes.atOnce
  | finishes finishes => exact finishes.atOnce
  | reads => exact ⟨.refl _, rfl, id, id⟩

end atOnce

structure Ages (c : Connection) (elapsed : Nat) (aged : Sender) (after : Connection) : Prop where
  active : c.active = true
  ages : c.sender.Ages elapsed aged
  sender : ∃ stream queued, after.sender = { aged with stream, queued }
  config_eq : after.config = c.config
  verdict : c.config.maxResends < aged.resends ∧ after.active = false ∨
    aged.resends ≤ c.config.maxResends ∧ after.cause = c.cause

theorem Elapses.ages {elapsed : Nat} (elapses : Elapses c elapsed after) :
    after = c ∨ ∃ aged, Ages c elapsed aged after := by
  cases elapses with
  | sleeps => exact Or.inl rfl
  | givesUp active _ ticks many resets =>
    rw [resets.after_eq]
    exact Or.inr ⟨_, active, Sender.tick_ages ticks, ⟨_, _, rfl⟩, rfl, Or.inl ⟨many, rfl⟩⟩
  | goesOn active _ ticks few flushes =>
    cases flushes
    exact Or.inr ⟨_, active, Sender.tick_ages ticks, ⟨_, _, rfl⟩, rfl, Or.inr ⟨few, rfl⟩⟩

theorem tick_ages {elapsed : Nat} (h : (c.tick elapsed).result = .ok after) :
    after = c ∨ ∃ aged, Ages c elapsed aged after := (tick_eq_ok_iff.mp h).ages

/-- What a connection keeps to by the time that it is told of. -/
structure Punctual (sent : Nat → Nat → Prop) (now : Nat) (config : Config) (c : Connection) : Prop where
  config_eq : c.config = config
  timeout_eq : c.sender.initialTimeout = config.timeout
  timed : c.sender.Timed sent now
  patient : c.active = true → c.sender.Patient config.maxResends

variable {sent : Nat → Nat → Prop} {now elapsed : Nat} {config : Config} {o : Outstanding}

theorem punctual_initial (sent : Nat → Nat → Prop) (now : Nat) (config : Config) (isn : SeqNum) :
    Punctual sent now config (initial config isn) := by
  refine ⟨rfl, rfl, ⟨fun _ => ⟨rfl, rfl⟩, fun _ _ inFlight => ?_, fun _ member => ?_⟩,
    fun _ _ member => ?_⟩
  · cases inFlight
  · cases member
  · cases member

theorem Punctual.mono (punctual : Punctual sent now config c) {sent' : Nat → Nat → Prop}
    (more : ∀ number since, sent number since → sent' number since) : Punctual sent' now config c :=
  ⟨punctual.config_eq, punctual.timeout_eq, punctual.timed.mono more, punctual.patient⟩

theorem Punctual.atOnce (punctual : Punctual sent now config c) (once : AtOnce c after)
    (here : ∀ number, c.sender.nextSeqno < number → number ≤ after.sender.nextSeqno →
      sent number now) : Punctual sent now config after :=
  ⟨once.config_eq.trans punctual.config_eq, once.sender.mem.2.1.trans punctual.timeout_eq,
    punctual.timed.moves once.sender here, fun active =>
      once.sender.patient (punctual.patient (once.active active))⟩

theorem Punctual.tick (punctual : Punctual sent now config c) (h : (c.tick elapsed).result = .ok after) :
    Punctual sent (now + elapsed) config after := by
  obtain ⟨config_eq, timeout_eq, timed, patient⟩ := punctual
  rcases tick_ages h with rfl | ⟨aged, active, ages, ⟨stream, queued, sender_eq⟩, same, verdict⟩
  · exact ⟨config_eq, timeout_eq, timed.later (Nat.le_add_right _ _), patient⟩
  · have aged_timed := timed.ages ages
    rw [config_eq] at verdict
    refine ⟨same.trans config_eq, ?_, ?_, fun active' => ?_⟩
    · rw [sender_eq, ← timeout_eq]
      exact ages.initialTimeout_eq
    · rw [sender_eq]
      exact ⟨aged_timed.rests, aged_timed.runs, aged_timed.known⟩
    · rcases verdict with ⟨-, stopped⟩ | ⟨few, -⟩
      · cases stopped.symm.trans active'
      · rw [sender_eq]
        exact ages.patient (patient active) few

theorem Punctual.due (punctual : Punctual sent now config c) (ledger : c.sender.Ledger)
    (h : (c.tick elapsed).result = .ok after) (repeats : c.sender.Repeats after.sender o) :
    ∃ since, sent o.endSeqno since ∧ since + config.timeout ≤ now + elapsed := by
  rw [← punctual.timeout_eq]
  rcases tick_ages h with rfl | ⟨aged, -, ages, ⟨stream, queued, sender_eq⟩, -⟩
  · exact absurd repeats ((Sender.Moves.refl _).not_repeats ledger)
  · rw [sender_eq] at repeats
    exact punctual.timed.due ledger ages repeats

theorem Punctual.gives_up (punctual : Punctual sent now config c)
    (h : (c.tick elapsed).result = .ok after) (cause : after.cause = some .timedOut) :
    c.cause = some .timedOut ∨
      ∃ o, c.sender.Repeats after.sender o ∧ config.maxResends ≤ o.resends := by
  rcases tick_ages h with rfl | ⟨aged, active, ages, ⟨stream, queued, sender_eq⟩, -, verdict⟩
  · exact Or.inl cause
  · rcases verdict with ⟨many, -⟩ | ⟨-, same⟩
    · rw [punctual.config_eq] at many
      rw [sender_eq]
      exact Or.inr (ages.repeats_of_many (punctual.patient active) many)
    · exact Or.inl (same ▸ cause)

end TcpStack.Connection

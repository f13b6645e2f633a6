import TcpStack.Proofs.UdpStream.Effect

/-! Strangers at a stream. Once a stream has a peer, what comes from anyone else leaves nothing behind but a
notice, and before that nothing counts but the segment that opens. So a stream does the same with all that
comes to it as with what is left when the strangers are taken out. Notices have no part in what a stream
does. -/

namespace TcpStack

namespace Net.Host

def quiet (host : Host) : Host := { host with journal := [] }

end Net.Host

namespace UdpStream

open Outcome

/-- What counts of the segments that come: those of the peer. Without a peer, the source of the first that knocks
becomes it, and nothing before that one counts. (No stream has a connection and no peer; to such a one nobody
would be a stranger.) -/
def admitted (st : UdpStream) (arrivals : List (Segment × Net.Address)) : List (Segment × Net.Address) :=
  match st.peer, st.connection with
  | some peer, _ => arrivals.filter fun arrival => arrival.2 = peer
  | none, some _ => arrivals
  | none, none =>
    match arrivals.dropWhile fun arrival => !knocks arrival.1 with
    | [] => []
    | first :: rest => first :: rest.filter fun arrival => arrival.2 = first.2

def handleSegments (st : UdpStream) (host : Net.Host) (arrivals : List (Segment × Net.Address)) :
    Except Fault (UdpStream × Net.Host) :=
  arrivals.foldlM (fun (st, host) (segment, source) => st.handleSegment host segment source) (st, host)

/-- The outcome of a computation at a host, without what was said in it. -/
def hushed {α : Type} (outcome : Except Fault (α × Net.Host)) : Except Fault (α × Net.Host) :=
  (Prod.map id Net.Host.quiet) <$> outcome

section quiet

/-! Hosts that differ in their journals only are treated alike. -/

variable {α β : Type} {host other : Net.Host} {st after : UdpStream} {segment : Segment}
  {source : Net.Address} {x y : Except Fault (α × Net.Host)}

theorem hushed_ok (a : α) (alike : host.quiet = other.quiet) :
    hushed (.ok (a, host)) = hushed (.ok (a, other)) := by
  change Except.ok (a, host.quiet) = Except.ok (a, other.quiet)
  rw [alike]

theorem hushed_cases (same : hushed x = hushed y) :
    (∃ fault, x = .error fault ∧ y = .error fault) ∨
    ∃ a host other, x = .ok (a, host) ∧ y = .ok (a, other) ∧ host.quiet = other.quiet := by
  cases x with
  | error fault =>
    cases y with
    | error => cases same; exact Or.inl ⟨fault, rfl, rfl⟩
    | ok => cases same
  | ok first =>
    cases y with
    | error => cases same
    | ok second =>
      obtain ⟨a, host⟩ := first
      obtain ⟨b, other⟩ := second
      obtain ⟨rfl, alike⟩ := Prod.mk.inj (Except.ok.inj same)
      exact Or.inr ⟨_, host, other, rfl, rfl, alike⟩

theorem hushed_bind {f g : α × Net.Host → Except Fault (β × Net.Host)} (same : hushed x = hushed y)
    (next : ∀ a host other, host.quiet = other.quiet → hushed (f (a, host)) = hushed (g (a, other))) :
    hushed (x >>= f) = hushed (y >>= g) := by
  rcases hushed_cases same with ⟨fault, rfl, rfl⟩ | ⟨a, host, other, rfl, rfl, alike⟩
  · rfl
  · exact next a host other alike

theorem quiet_note (host : Net.Host) (notice : Notice) : (host.note notice).quiet = host.quiet := rfl

theorem clock_eq_of_quiet (alike : host.quiet = other.quiet) : host.clock = other.clock :=
  show host.quiet.clock = other.quiet.clock by rw [alike]

theorem record_quiet (run : Run α) (alike : host.quiet = other.quiet) :
    hushed (host.record run) = hushed (other.record run) := by
  unfold Net.Host.record
  cases run.result with
  | error => rfl
  | ok a => exact hushed_ok a alike

theorem transmit_quiet (st : UdpStream) (peer : Net.Address) (segment : Segment)
    (alike : host.quiet = other.quiet) :
    (st.transmit peer host segment).quiet = (st.transmit peer other segment).quiet := by
  have sends (host : Net.Host) : (st.transmit peer host segment).quiet = { host.quiet with
      sent := host.quiet.sent ++
        if host.quiet.failing.send then [] else [st.envelope peer host.quiet.clock segment] } := by
    obtain ⟨notices, keeps⟩ := transmit_keeps st peer host segment
    rw [keeps]
    rfl
  rw [sends, sends, alike]

theorem flush_quiet (st : UdpStream) (alike : host.quiet = other.quiet) :
    (st.flush host).1 = (st.flush other).1 ∧ (st.flush host).2.quiet = (st.flush other).2.quiet := by
  unfold flush
  cases st.connection with
  | none => exact ⟨rfl, alike⟩
  | some c =>
    cases st.peer with
    | none => exact ⟨rfl, alike⟩
    | some peer =>
      refine ⟨rfl, ?_⟩
      change (c.queued.foldl (st.transmit peer) host).quiet = (c.queued.foldl (st.transmit peer) other).quiet
      induction c.queued generalizing host other with
      | nil => exact alike
      | cons segment rest ih => exact ih (transmit_quiet st peer segment alike)

theorem updateEvents_quiet (st : UdpStream) (alike : host.quiet = other.quiet) :
    hushed (st.updateEvents host) = hushed (st.updateEvents other) := by
  unfold updateEvents
  cases st.connection with
  | none => exact hushed_ok st alike
  | some c =>
    have told : (st.tellConnect c host).1 = (st.tellConnect c other).1 ∧
        (st.tellConnect c host).2.quiet = (st.tellConnect c other).2.quiet := by
      unfold tellConnect
      split
      · exact ⟨rfl, alike⟩
      · exact ⟨rfl, alike⟩
    simp only [told.1]
    cases (st.tellConnect c other).1.tellData c with
    | error => rfl
    | ok => exact hushed_ok _ told.2

theorem pass_quiet (st : UdpStream) (c : Connection) (segment : Segment) (alike : host.quiet = other.quiet) :
    hushed (st.pass host c segment) = hushed (st.pass other c segment) := by
  unfold pass
  refine hushed_bind (record_quiet _ alike) fun c' host other alike => ?_
  obtain ⟨same, alike⟩ := flush_quiet { st with connection := some c' } alike
  simp only [same]
  exact updateEvents_quiet _ alike

theorem handleSegment_quiet (st : UdpStream) (segment : Segment) (source : Net.Address)
    (alike : host.quiet = other.quiet) :
    hushed (st.handleSegment host segment source) = hushed (st.handleSegment other segment source) := by
  unfold handleSegment
  split
  · exact hushed_ok st alike
  · cases st.connection with
    | some c => exact pass_quiet st c segment alike
    | none =>
      simp only
      split
      · exact hushed_ok st alike
      · rw [clock_eq_of_quiet alike]
        cases st.newConnection source other.clock with
        | error => rfl
        | ok c => exact pass_quiet { st with connection := none, peer := some source } c segment alike

theorem handleSegments_cons (st : UdpStream) (host : Net.Host) (segment : Segment) (source : Net.Address)
    (rest : List (Segment × Net.Address)) : st.handleSegments host ((segment, source) :: rest) =
      st.handleSegment host segment source >>= fun (st, host) => st.handleSegments host rest := rfl

end quiet

section peers

variable {host host' other : Net.Host} {st after : UdpStream} {c : Connection} {segment : Segment}
  {source peer : Net.Address}

theorem peer_of_settles {base : UdpStream} {call : Connection.Call} (settles : Settles base host c call after host') :
    after.peer = base.peer := by
  cases settles with
  | settles _ _ informs =>
    cases informs
    rfl

theorem handleSegment_of_stranger (segment : Segment) (host : Net.Host) (known : st.peer = some peer)
    (stranger : source ≠ peer) :
    st.handleSegment host segment source = .ok (st, host.note (.ignoredStranger source)) := by
  unfold handleSegment
  rw [known, if_pos (by simpa using stranger.symm)]
  rfl

theorem handleSegment_of_unknown (host : Net.Host) (unknown : st.peer = none) (alone : st.connection = none)
    (silent : knocks segment = false) : st.handleSegment host segment source = .ok (st, host) := by
  have other : (!segment.syn || segment.ack || segment.rst) = true := by rw [← not_knocks, silent, Bool.not_false]
  unfold handleSegment
  rw [unknown, alone]
  simp only [Option.any_none, Bool.false_eq_true, if_false, if_pos other]
  rfl

theorem peer_of_handleSegment (h : st.handleSegment host segment source = .ok (after, host')) :
    after.peer = st.peer ∨ after.peer = some source ∧ ∀ peer, st.peer = some peer → peer = source := by
  cases handleSegment_handles h with
  | ignores | waits => exact Or.inl rfl
  | opens fits _ _ _ settles =>
    refine Or.inr ⟨peer_of_settles settles, fun peer known => ?_⟩
    simpa [known] using fits
  | passes _ _ settles => exact Or.inl (peer_of_settles settles)

theorem peer_of_known (known : st.peer = some peer)
    (h : st.handleSegment host segment source = .ok (after, host')) : after.peer = some peer := by
  rcases peer_of_handleSegment h with same | ⟨now, same⟩
  · exact same.trans known
  · rw [now, same peer known]

theorem peer_of_knock (unknown : st.peer = none) (alone : st.connection = none) (knock : knocks segment = true)
    (h : st.handleSegment host segment source = .ok (after, host')) : after.peer = some source := by
  cases handleSegment_handles h with
  | ignores stranger => simp [unknown] at stranger
  | waits _ _ other => cases knock.symm.trans other
  | opens _ _ _ _ settles => exact peer_of_settles settles
  | passes _ found => cases alone.symm.trans found

end peers

section strangers

variable {host other : Net.Host} {st : UdpStream} {peer : Net.Address} {arrivals : List (Segment × Net.Address)}

theorem admitted_of_known (known : st.peer = some peer) (arrivals : List (Segment × Net.Address)) :
    st.admitted arrivals = arrivals.filter fun arrival => arrival.2 = peer := by
  unfold admitted
  rw [known]

theorem handleSegments_quiet (st : UdpStream) (arrivals : List (Segment × Net.Address))
    (alike : host.quiet = other.quiet) :
    hushed (st.handleSegments host arrivals) = hushed (st.handleSegments other arrivals) := by
  induction arrivals generalizing st host other with
  | nil => exact hushed_ok st alike
  | cons arrival rest ih =>
    obtain ⟨segment, source⟩ := arrival
    simp only [handleSegments_cons]
    exact hushed_bind (handleSegment_quiet st segment source alike) fun st host other alike => ih st alike

theorem handleSegments_of_known (known : st.peer = some peer) (arrivals : List (Segment × Net.Address))
    (host : Net.Host) : hushed (st.handleSegments host arrivals) =
      hushed (st.handleSegments host (arrivals.filter fun arrival => arrival.2 = peer)) := by
  induction arrivals generalizing st host with
  | nil => rfl
  | cons arrival rest ih =>
    obtain ⟨segment, source⟩ := arrival
    by_cases stranger : source = peer
    · rw [List.filter_cons_of_pos (by simpa using stranger)]
      simp only [handleSegments_cons]
      cases taken : st.handleSegment host segment source with
      | error => rfl
      | ok result => exact ih (peer_of_known known taken) result.2
    · rw [List.filter_cons_of_neg (by simpa using stranger), handleSegments_cons,
        handleSegment_of_stranger segment host known stranger]
      exact (handleSegments_quiet st rest (quiet_note host _)).trans (ih known host)

theorem handleSegments_of_unknown (unknown : st.peer = none) (alone : st.connection = none)
    (arrivals : List (Segment × Net.Address)) (host : Net.Host) :
    hushed (st.handleSegments host arrivals) = hushed (st.handleSegments host (st.admitted arrivals)) := by
  unfold admitted
  rw [unknown, alone]
  induction arrivals with
  | nil => rfl
  | cons arrival rest ih =>
    obtain ⟨segment, source⟩ := arrival
    cases knock : knocks segment with
    | false =>
      rw [handleSegments_cons, handleSegment_of_unknown host unknown alone knock]
      simpa [knock] using ih
    | true =>
      simp only [List.dropWhile_cons, knock, Bool.not_true, Bool.false_eq_true, if_false, handleSegments_cons]
      cases taken : st.handleSegment host segment source with
      | error => rfl
      | ok result => exact handleSegments_of_known (peer_of_knock unknown alone knock taken) rest result.2

/-- Strangers have no part in what becomes of a stream. Taking in all that comes has the same outcome as taking
in what is admitted: the same fault, or the same stream and a host on which the same was sent and only other
notices stand. -/
theorem strangers_have_no_part (st : UdpStream) (host : Net.Host) (arrivals : List (Segment × Net.Address)) :
    hushed (st.handleSegments host arrivals) = hushed (st.handleSegments host (st.admitted arrivals)) := by
  cases known : st.peer with
  | some peer =>
    rw [admitted_of_known known]
    exact handleSegments_of_known known arrivals host
  | none =>
    cases found : st.connection with
    | none => exact handleSegments_of_unknown known found arrivals host
    | some c =>
      unfold admitted
      rw [known, found]

end strangers

end UdpStream
end TcpStack

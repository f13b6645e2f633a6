import TcpStack.Proofs.Piece
import TcpStack.Segment

/-! Segments that tell the truth about a stream. `accepted` are the bytes of the stream so far, `ended`
says that no more will follow, and `isn` is its initial number: a faithful segment is the lone SYN, or
takes no number at all, or carries a piece of the stream at its place, with a FIN only behind the last
byte. -/

namespace TcpStack.Segment

inductive Faithful (accepted : Bytes) (ended : Bool) (isn : SeqNum) (segment : Segment) : Prop
  | opening (syn : segment.syn = true) (seqno : segment.seqno = isn)
      (payload : segment.payload = []) (fin : segment.fin = false)
  | bare (position : Nat) (inside : position ≤ accepted.length + 2) (syn : segment.syn = false)
      (seqno : segment.seqno = SeqNum.wrap position isn) (payload : segment.payload = [])
      (fin : segment.fin = false)
  | carries (index : Nat) (inside : index ≤ accepted.length) (syn : segment.syn = false)
      (seqno : segment.seqno = SeqNum.wrap (index + 1) isn)
      (payload : accepted.HasAt index segment.payload)
      (fin : segment.fin = true →
        ended = true ∧ index + segment.payload.length = accepted.length)

variable {accepted : Bytes} {ended : Bool} {isn : SeqNum} {segment : Segment}

theorem Faithful.grow (faithful : Faithful accepted ended isn segment) {more : Bytes}
    (open' : ended = true → more = []) : Faithful (accepted ++ more) ended isn segment := by
  have longer : accepted.length ≤ (accepted ++ more).length := by simp
  cases faithful with
  | opening syn seqno payload fin => exact .opening syn seqno payload fin
  | bare position inside syn seqno payload fin =>
    exact .bare position (by omega) syn seqno payload fin
  | carries index inside syn seqno payload fin =>
    refine .carries index (by omega) syn seqno (payload.grow more) fun h => ?_
    obtain ⟨hended, hstop⟩ := fin h
    exact ⟨hended, by simpa [open' hended] using hstop⟩

theorem Faithful.end_stream (faithful : Faithful accepted ended isn segment) :
    Faithful accepted true isn segment := by
  cases faithful with
  | opening syn seqno payload fin => exact .opening syn seqno payload fin
  | bare position inside syn seqno payload fin =>
    exact .bare position inside syn seqno payload fin
  | carries index inside syn seqno payload fin =>
    exact .carries index inside syn seqno payload fun h => ⟨rfl, (fin h).2⟩

theorem Faithful.payload_of_syn (faithful : Faithful accepted ended isn segment)
    (syn : segment.syn = true) : segment.payload = [] := by
  cases faithful with
  | opening _ _ payload => exact payload
  | bare _ _ syn' => simp [syn] at syn'
  | carries _ _ syn' => simp [syn] at syn'

/-- The segment without its acknowledgment fields. -/
def unstamped (segment : Segment) : Segment := { segment with ack := false, ackno := {}, window := 0 }

theorem Faithful.of_same {other : Segment} (faithful : Faithful accepted ended isn segment)
    (syn : other.syn = segment.syn) (seqno : other.seqno = segment.seqno)
    (payload : other.payload = segment.payload) (fin : other.fin = segment.fin) :
    Faithful accepted ended isn other := by
  cases faithful with
  | opening syn' seqno' payload' fin' =>
    exact .opening (syn.trans syn') (seqno.trans seqno') (payload.trans payload') (fin.trans fin')
  | bare position inside syn' seqno' payload' fin' =>
    exact .bare position inside (syn.trans syn') (seqno.trans seqno') (payload.trans payload')
      (fin.trans fin')
  | carries index inside syn' seqno' payload' fin' =>
    refine .carries index inside (syn.trans syn') (seqno.trans seqno') ?_ fun h => ?_
    · rwa [payload]
    · rw [payload]
      exact fin' (fin ▸ h)

end TcpStack.Segment

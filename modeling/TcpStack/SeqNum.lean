import TcpStack.Basic

/-! Sequence numbers. A number on the wire has 32 bits and wraps around; inside, positions are
absolute counters from the initial number on, which never wrap. A wire number stands for many
absolute ones, and `unwrap` takes the one nearest to a checkpoint: only the cycle of the checkpoint
and its two neighbours can hold it. -/

namespace TcpStack

structure SeqNum where
  value : UInt32 := 0
deriving DecidableEq, Repr, Inhabited

namespace SeqNum

def cycle : Nat := UInt32.size

instance : HAdd SeqNum UInt32 SeqNum := ⟨fun n k => ⟨n.value + k⟩⟩

instance : HSub SeqNum UInt32 SeqNum := ⟨fun n k => ⟨n.value - k⟩⟩

instance : HSub SeqNum SeqNum UInt32 := ⟨fun n m => n.value - m.value⟩

def text (n : SeqNum) : String := toString n.value.toNat

def wrap (absolute : Nat) (isn : SeqNum) : SeqNum := isn + UInt32.ofNat absolute

def gap (a b : Nat) : Nat := (a - b) + (b - a)

def nearer (checkpoint best candidate : Nat) : Nat :=
  if gap candidate checkpoint < gap best checkpoint then candidate else best

/-- The absolute position nearest to the checkpoint that has this wire number; of two equally near
the one in the checkpoint's own cycle. The position one cycle up is computed in every case, so a
checkpoint in the last two cycles of the counters is refused. -/
def unwrap (n isn : SeqNum) (checkpoint : Nat) : Except Fault Nat := do
  let base ← Count.add (checkpoint - checkpoint % cycle) (n - isn).toNat
  let above ← Count.add base cycle
  let best := nearer checkpoint base above
  return if cycle ≤ base then nearer checkpoint best (base - cycle) else best

theorem wrap_zero (isn : SeqNum) : wrap 0 isn = isn := by
  show SeqNum.mk (isn.value + 0) = isn
  rw [UInt32.add_zero]

end SeqNum
end TcpStack

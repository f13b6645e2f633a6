import TcpStack.Basic

/-! Fragments: runs of bytes at their place in a stream. A list of pending fragments is kept in the
order of their places, with a gap between any two of them, so a new fragment meets a contiguous part
of the list and joins with it into one. -/

namespace TcpStack

structure Fragment where
  start : Nat
  bytes : Bytes
deriving DecidableEq, Repr

namespace Fragment

def stop (fragment : Fragment) : Nat := fragment.start + fragment.bytes.length

/-- One fragment in place of two that overlap or touch. Where both have a byte, that of `recent`
is kept. -/
def join (recent old : Fragment) : Except Fault Fragment := do
  let stop ← Count.add recent.start recent.bytes.length
  let oldStop ← Count.add old.start old.bytes.length
  let before ←
    if old.start < recent.start then
      old.bytes.slice 0 (← Count.sub recent.start old.start)
    else pure []
  let after ←
    if stop < oldStop then
      let length ← Count.sub oldStop stop
      old.bytes.slice (← Count.sub old.bytes.length length) old.bytes.length
    else pure []
  return ⟨min old.start recent.start, before ++ recent.bytes ++ after⟩

/-- The fragments that end before `start`, those that meet the range from `start` to `stop` or touch
it, and those that begin after `stop`. -/
def around (start stop : Nat) (pending : List Fragment) :
    List Fragment × List Fragment × List Fragment :=
  let (before, rest) := pending.span fun fragment => fragment.stop < start
  let (touching, after) := rest.span fun fragment => fragment.start ≤ stop
  (before, touching, after)

def total (pending : List Fragment) : Nat :=
  pending.foldr (fun fragment count => fragment.bytes.length + count) 0

end Fragment
end TcpStack

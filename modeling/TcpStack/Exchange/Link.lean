import TcpStack.Segment

/-! A link between two ends that carries segments at once and in order, and loses some of them. Segments
are numbered in the order in which they enter the link, from either end. -/

namespace TcpStack

/-- The segments with these numbers are lost, and the last one of every `period`. -/
structure Link where
  lost : List Nat := []
  period : Nat := 0
deriving DecidableEq, Repr

def Link.loses (link : Link) (number : Nat) : Bool :=
  link.lost.contains number || (0 < link.period && number % link.period == link.period - 1)

inductive Side where
  | first
  | second
deriving DecidableEq, Repr

def Side.other : Side → Side
  | .first => .second
  | .second => .first

def Side.text : Side → String
  | .first => "a"
  | .second => "b"

structure Passage where
  origin : Side
  lost : Bool
  segment : Segment
deriving DecidableEq, Repr

def Passage.text (passage : Passage) : String :=
  passage.origin.text ++ (if passage.lost then "x " else "> ") ++ passage.segment.text

end TcpStack

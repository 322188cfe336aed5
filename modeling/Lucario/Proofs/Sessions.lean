import Lucario.Core
import Lucario.Lib.Trace

namespace Lucario.Proofs

def hostOf (a b : String) : Host := fun path =>
  if path = ['a'] then some a.toList else if path = ['b'] then some b.toList else none

def zeros : Unspecified := ⟨0, 0, 0, 0, []⟩

def session (a b : String) (iterations : Nat) : List Event :=
  .create (hostOf a b) zeros ['a'] :: .create (hostOf a b) zeros ['b'] ::
    List.replicate iterations (.worker zeros)

def zeroKeys : Nat → Int := fun _ => 0

def readers (iterations : Nat) : List Event :=
  session "_start 1\n.N 4\n.P A\n06000000\n06000000\n06000000\n06000000\n"
    "_start 1\n.N 4\n.P B\n06000000\n06000000\n06000000\n06000000\n" iterations

def firstReader : System := Trace.stateAt next (boot zeroKeys) (readers 1) 3

end Lucario.Proofs

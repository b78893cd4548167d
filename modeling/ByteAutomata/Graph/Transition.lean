import ByteAutomata.ByteSet

/-! # Transitions

A transition is the condition on the byte that enters a vertex. A transition that is marked as a
match completes the pattern named by its label. -/
namespace ByteAutomata

namespace Transition

inductive Kind where
  | literal (b : UInt8)
  | either (b c : UInt8)
  | range (lo hi : UInt8)
  | charClass (set : ByteSet)
deriving DecidableEq

def Kind.accepts : Kind → UInt8 → Bool
  | .literal b, x => x == b
  | .either b c, x => x == b || x == c
  | .range lo hi, x => decide (lo ≤ x ∧ x ≤ hi)
  | .charClass set, x => set.contains x

protected def Kind.toString : Kind → String
  | .literal b => "LIT " ++ Numeral.byte b
  | .either b c => "EITHER " ++ Numeral.byte b ++ " " ++ Numeral.byte c
  | .range lo hi => "RANGE " ++ Numeral.byte lo ++ "-" ++ Numeral.byte hi
  | .charClass set => "CLASS " ++ set.toString

instance : ToString Kind := ⟨Kind.toString⟩

end Transition

structure Transition where
  kind : Transition.Kind
  /-- The pattern that is matched here, if `isMatch` holds. -/
  label : Nat := 0
  isMatch : Bool := false
deriving DecidableEq

namespace Transition

def literal (b : UInt8) : Transition := { kind := .literal b }

def either (b c : UInt8) : Transition := { kind := .either b c }

def range (lo hi : UInt8) : Transition := { kind := .range lo hi }

def any : Transition := range 0x00 0xFF

/-- The transition on a set, which is a range when the set is a single run. -/
def ofSet (set : ByteSet) : Transition :=
  match set.asRange with
  | some (lo, hi) => range lo hi
  | none => { kind := .charClass set }

def accepts (t : Transition) (b : UInt8) : Bool := t.kind.accepts b

def acceptedBytes (t : Transition) : ByteSet := .ofList (ByteSet.allBytes.filter t.accepts)

protected def toString (t : Transition) : String :=
  if t.isMatch then t.kind.toString ++ " MATCH(" ++ toString t.label ++ ")" else t.kind.toString

instance : ToString Transition := ⟨Transition.toString⟩

end Transition
end ByteAutomata

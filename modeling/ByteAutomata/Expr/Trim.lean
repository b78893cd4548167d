import ByteAutomata.Expr.Build

/-! # Reluctant ends

A reluctant repetition at the very end of an expression never goes beyond the rounds that it must
make, so it is replaced by them. If nothing is left of it, the same holds of what is in front of
it. -/
namespace ByteAutomata.Expr

mutual

/-- Removes the rounds that a reluctant repetition at the end would never make. -/
def trimLazyEnd : Expr → Expr
  | repetition min max greedy sub =>
    if greedy then repetition min max greedy sub
    else match min with
      | 0 => empty
      | 1 => sub.trimLazyEnd
      | min + 1 => sequence [repeated min (some min) true sub, sub.trimLazyEnd]
  | capture index name sub => capture index name sub.trimLazyEnd
  | concat items => sequence (trimLast items)
  | alternation items => choice (trimEach items)
  | empty => empty
  | literal bytes => literal bytes
  | byteClass set => byteClass set
  | charClass set => charClass set
  | assertion a => assertion a

/-- Trims the last item, and drops it and goes on to the one before if nothing is left of it. -/
def trimLast : List Expr → List Expr
  | [] => []
  | e :: rest =>
    match trimLast rest with
    | [] =>
      let e := e.trimLazyEnd
      if e.isEmpty then [] else [e]
    | rest => e :: rest

def trimEach : List Expr → List Expr
  | [] => []
  | e :: rest => e.trimLazyEnd :: trimEach rest

end

end ByteAutomata.Expr

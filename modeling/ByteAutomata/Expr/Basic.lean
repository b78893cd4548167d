import ByteAutomata.Intervals
import ByteAutomata.Text.Utf8

/-! # Expressions

An expression is what a pattern means once flags, groups and spellings are resolved: literals are
bytes, classes are sets of bytes or of characters, and concatenations and alternations have any
number of items. -/
namespace ByteAutomata

namespace Points

def bytes : Points where
  last := 0xFF
  next n := n + 1
  prev n := n - 1

def chars : Points where
  last := 0x10FFFF
  next n := if n = 0xD7FF then 0xE000 else n + 1
  prev n := if n = 0xE000 then 0xD7FF else n - 1

end Points

abbrev ByteClass := Intervals .bytes

/-- A set of characters. An interval may go across the surrogates, which it does not hold. -/
abbrev CharClass := Intervals .chars

/-- The same members as bytes, if they are all in ASCII. -/
def CharClass.toByteClass? (s : CharClass) : Option ByteClass :=
  if s.isBelow 0x80 then some (.ofRanges s.ranges) else none

def ByteClass.toCharClass? (s : ByteClass) : Option CharClass :=
  if s.isBelow 0x80 then some (.ofRanges s.ranges) else none

/-- Conditions on a position in the text. Words are runs of ASCII or of Unicode word characters,
and a half condition looks at one side of the position only. -/
inductive Assertion where
  | start
  | finish
  | startLF
  | finishLF
  | startCRLF
  | finishCRLF
  | wordAscii
  | wordAsciiNegate
  | wordUnicode
  | wordUnicodeNegate
  | wordStartAscii
  | wordEndAscii
  | wordStartUnicode
  | wordEndUnicode
  | wordStartHalfAscii
  | wordEndHalfAscii
  | wordStartHalfUnicode
  | wordEndHalfUnicode
deriving DecidableEq

inductive Expr where
  | empty
  | literal (bytes : List UInt8)
  | byteClass (set : ByteClass)
  | charClass (set : CharClass)
  | assertion (a : Assertion)
  | repetition (min : Nat) (max : Option Nat) (greedy : Bool) (sub : Expr)
  | capture (index : Nat) (name : Option String) (sub : Expr)
  | concat (items : List Expr)
  | alternation (items : List Expr)

namespace Expr

instance : Inhabited Expr := ⟨empty⟩

mutual

def size : Expr → Nat
  | repetition _ _ _ sub => sub.size + 1
  | capture _ _ sub => sub.size + 1
  | concat items => sizes items + 1
  | alternation items => sizes items + 1
  | empty | literal _ | byteClass _ | charClass _ | assertion _ => 1

def sizes : List Expr → Nat
  | [] => 0
  | e :: rest => e.size + sizes rest

end

theorem size_pos (e : Expr) : 0 < e.size := by cases e <;> simp [size]

@[simp] theorem sizes_append (es fs : List Expr) : sizes (es ++ fs) = sizes es + sizes fs := by
  induction es with
  | nil => simp [sizes]
  | cons e es ih => simp [sizes, ih, Nat.add_assoc]

mutual

protected def beq : Expr → Expr → Bool
  | empty, empty => true
  | literal a, literal b => a == b
  | byteClass s, byteClass t => s == t
  | charClass s, charClass t => s == t
  | assertion a, assertion b => a == b
  | repetition m n g e, repetition m' n' g' e' => m == m' && n == n' && g == g' && e.beq e'
  | capture i n e, capture i' n' e' => i == i' && n == n' && e.beq e'
  | concat es, concat fs => beqAll es fs
  | alternation es, alternation fs => beqAll es fs
  | _, _ => false

def beqAll : List Expr → List Expr → Bool
  | [], [] => true
  | e :: es, f :: fs => e.beq f && beqAll es fs
  | _, _ => false

end

mutual

theorem eq_of_beq : ∀ {e f : Expr}, e.beq f = true → e = f := by
  intro e f h
  cases e <;> cases f <;> simp only [Expr.beq, Bool.false_eq_true, Bool.and_eq_true,
    beq_iff_eq] at h
  case empty.empty => rfl
  case repetition.repetition => rw [h.1.1.1, h.1.1.2, h.1.2, eq_of_beq h.2]
  case capture.capture => rw [h.1.1, h.1.2, eq_of_beq h.2]
  case concat.concat => rw [eq_of_beqAll h]
  case alternation.alternation => rw [eq_of_beqAll h]
  all_goals rw [h]

theorem eq_of_beqAll : ∀ {es fs : List Expr}, beqAll es fs = true → es = fs := by
  intro es fs h
  cases es <;> cases fs <;> simp only [beqAll, Bool.false_eq_true, Bool.and_eq_true] at h
  case nil.nil => rfl
  case cons.cons => rw [eq_of_beq h.1, eq_of_beqAll h.2]

end

mutual

theorem beq_refl : ∀ e : Expr, e.beq e = true
  | empty | literal _ | byteClass _ | charClass _ | assertion _ => by simp [Expr.beq]
  | repetition _ _ _ e => by simp [Expr.beq, beq_refl e]
  | capture _ _ e => by simp [Expr.beq, beq_refl e]
  | concat es => by simp [Expr.beq, beqAll_refl es]
  | alternation es => by simp [Expr.beq, beqAll_refl es]

theorem beqAll_refl : ∀ es : List Expr, beqAll es es = true
  | [] => rfl
  | e :: es => by simp [beqAll, beq_refl e, beqAll_refl es]

end

instance : DecidableEq Expr := fun e f =>
  if h : e.beq f then .isTrue (eq_of_beq h)
  else .isFalse fun he => h (he ▸ beq_refl e)

/-- Whether nothing but the empty string can be matched, as far as the lengths of literals and
classes tell. -/
def onlyEmpty : Expr → Bool
  | empty | assertion _ => true
  | literal bytes => bytes.isEmpty
  | byteClass _ | charClass _ => false
  | repetition _ max _ sub => max.isSome && sub.onlyEmpty
  | capture _ _ sub => sub.onlyEmpty
  | concat items => allOnlyEmpty items
  | alternation items => allOnlyEmpty items
where
  allOnlyEmpty : List Expr → Bool
    | [] => true
    | e :: rest => e.onlyEmpty && allOnlyEmpty rest

def isEmpty : Expr → Bool
  | empty => true
  | _ => false

/-- Whether the first interval of a class spans everything there is. -/
def isAnyByte : Expr → Bool
  | byteClass set => set.ranges.head? = some (0, Points.bytes.last)
  | charClass set => set.ranges.head? = some (0, Points.chars.last)
  | _ => false

end Expr
end ByteAutomata

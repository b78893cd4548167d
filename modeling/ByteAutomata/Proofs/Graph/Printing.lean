import ByteAutomata.Graph.Printer
import ByteAutomata.Proofs.Graph.Neighbours
import ByteAutomata.Proofs.Runs
import ByteAutomata.Proofs.Text.Legible

/-! # Reading the text of a graph

Every part of the text of a graph can be told apart from what follows it: bytes and indices, the
runs of a set, the condition of a vertex with its match mark, and the successors behind the arrow.
So two graphs have the same text just if they show the same vertices, conditions and edges. -/
namespace ByteAutomata

namespace ByteSet

theorem toList_rangeText_single (b : UInt8) :
    (rangeText (b,b)).toList = (Numeral.byte b).toList := by
  simp [rangeText]

theorem toList_rangeText_append {lo hi : UInt8} (hne : lo ≠ hi) (rest : List Char) :
    (rangeText (lo,hi)).toList ++ rest =
      (Numeral.byte lo).toList ++ ('-' :: ((Numeral.byte hi).toList ++ rest)) := by
  simp [rangeText, hne]

/-- A run of one byte is not followed by a hyphen. -/
theorem legible_rangeText :
    Legible (fun rest => ∀ c ∈ rest.head?, c ≠ '-') fun r => (rangeText r).toList := by
  have hfirst : ∀ {lo lo' hi' : UInt8} {rest rest' : List Char}, (∀ c ∈ rest.head?, c ≠ '-') →
      (Numeral.byte lo).toList ++ rest ≠
        (Numeral.byte lo').toList ++ ('-' :: ((Numeral.byte hi').toList ++ rest')) := by
    intro lo lo' hi' rest rest' hrest h
    obtain ⟨-,rfl⟩ := Numeral.legible_byte trivial trivial h
    exact hrest '-' rfl rfl
  rintro ⟨lo,hi⟩ ⟨lo',hi'⟩ rest rest' hrest hrest' h
  dsimp only at h
  rcases eq_or_ne lo hi with rfl | hne
  · rcases eq_or_ne lo' hi' with rfl | hne'
    · rw [toList_rangeText_single, toList_rangeText_single] at h
      obtain ⟨rfl,hlast⟩ := Numeral.legible_byte trivial trivial h
      exact ⟨rfl,hlast⟩
    · rw [toList_rangeText_single, toList_rangeText_append hne'] at h
      exact absurd h (hfirst hrest)
  · rcases eq_or_ne lo' hi' with rfl | hne'
    · rw [toList_rangeText_append hne, toList_rangeText_single] at h
      exact absurd h.symm (hfirst hrest')
    · rw [toList_rangeText_append hne, toList_rangeText_append hne'] at h
      obtain ⟨rfl,hrange⟩ := Numeral.legible_byte trivial trivial h
      obtain ⟨rfl,hlast⟩ := Numeral.legible_byte trivial trivial (List.cons.inj hrange).2
      exact ⟨rfl,hlast⟩

/-- The runs of a set up to the closing bracket. -/
def runsText (runs : List (UInt8 × UInt8)) : List Char :=
  (" ".intercalate (runs.map rangeText)).toList ++ [']']

theorem runsText_cons (r : UInt8 × UInt8) (runs : List (UInt8 × UInt8)) (rest : List Char) :
    runsText (r :: runs) ++ rest = (rangeText r).toList ++
      ((runs.flatMap fun r => [' '] ++ (rangeText r).toList) ++ (']' :: rest)) := by
  rw [runsText, List.map_cons, toList_intercalate_cons, List.flatMap_map, List.append_assoc,
    List.append_assoc]
  rfl

theorem legible_runsText : Legible (fun _ => True) runsText := by
  have hempty : ∀ {r : UInt8 × UInt8} {runs : List (UInt8 × UInt8)} {rest rest' : List Char},
      runsText [] ++ rest ≠ runsText (r :: runs) ++ rest' := by
    intro r runs rest rest' h
    obtain ⟨lo,hi⟩ := r
    have hbyte : ∃ more, (rangeText (lo,hi)).toList = '0' :: more := by
      by_cases hsingle : lo = hi <;> simp [rangeText, hsingle, Numeral.byte]
    obtain ⟨more,hmore⟩ := hbyte
    rw [runsText_cons, hmore] at h
    simp [runsText] at h
  have hnext : ∀ (runs : List (UInt8 × UInt8)) (rest : List Char),
      ∀ c ∈ ((runs.flatMap fun r => [' '] ++ (rangeText r).toList) ++ (']' :: rest)).head?,
        c ≠ '-' := by
    intro runs rest c hc
    cases runs with
    | nil =>
      obtain rfl : ']' = c := by simpa using hc
      decide
    | cons r runs =>
      obtain rfl : ' ' = c := by simpa using hc
      decide
  intro runs runs' rest rest' _ _ h
  cases runs with
  | nil =>
    cases runs' with
    | nil => exact ⟨rfl,List.append_cancel_left h⟩
    | cons r' runs' => exact absurd h hempty
  | cons r runs =>
    cases runs' with
    | nil => exact absurd h.symm hempty
    | cons r' runs' =>
      rw [runsText_cons, runsText_cons] at h
      obtain ⟨rfl,hmore⟩ := legible_rangeText (hnext runs rest) (hnext runs' rest') h
      have hitems := Legible.flatMap [' '] legible_rangeText (fun rest => by simp)
      obtain ⟨rfl,hclose⟩ := hitems (by simp) (by simp) hmore
      exact ⟨rfl,(List.cons.inj hclose).2⟩

theorem legible_toString : Legible (fun _ => True) fun s : ByteSet => s.toString.toList := by
  intro s t rest rest' _ _ h
  have htext : ∀ u : ByteSet, u.toString.toList = '[' :: runsText u.ranges := by
    intro u
    simp [ByteSet.toString, runsText]
  dsimp only at h
  rw [htext, htext] at h
  obtain ⟨hranges,hrest⟩ := legible_runsText trivial trivial (List.cons.inj h).2
  rw [← s.ofRanges_ranges, ← t.ofRanges_ranges, hranges]
  exact ⟨rfl,hrest⟩

end ByteSet

namespace Transition

/-- What is written of a condition: its kind, and the label if it completes a match. -/
def shown (t : Transition) : Kind × Option Nat := (t.kind,if t.isMatch then some t.label else none)

/-- The labels need not agree where no match is completed. -/
structure LooksLike (t t' : Transition) : Prop where
  kind : t.kind = t'.kind
  isMatch : t.isMatch = t'.isMatch
  label : t.isMatch = true → t.label = t'.label

theorem shown_eq_iff {t t' : Transition} : t.shown = t'.shown ↔ t.LooksLike t' := by
  rw [shown, shown, Prod.mk.injEq]
  constructor
  · rintro ⟨hkind,hmark⟩
    cases ht : t.isMatch <;> cases ht' : t'.isMatch <;> simp [ht, ht'] at hmark
    · exact ⟨hkind,by rw [ht, ht'],by simp [ht]⟩
    · exact ⟨hkind,by rw [ht, ht'],fun _ => hmark⟩
  · rintro ⟨hkind,hmatch,hlabel⟩
    refine ⟨hkind,?_⟩
    rw [← hmatch]
    split
    · rename_i ht
      rw [hlabel ht]
    · rfl

theorem map_shown_eq_iff {t? t?' : Option Transition} :
    t?.map shown = t?'.map shown ↔ Option.Rel LooksLike t? t?' := by
  cases t? <;> cases t?' <;> simp [shown_eq_iff]

theorem legible_kind : Legible (fun _ => True) fun kind : Kind => kind.toString.toList := by
  intro kind kind' rest rest' _ _ h
  cases kind with
  | literal b =>
    cases kind' with
    | literal b' =>
      simp only [Kind.toString, String.toList_append, List.append_assoc,
        List.append_cancel_left_eq] at h
      obtain ⟨rfl,hrest⟩ := Numeral.legible_byte trivial trivial h
      exact ⟨rfl,hrest⟩
    | _ => simp [Kind.toString] at h
  | either b c =>
    cases kind' with
    | either b' c' =>
      simp only [Kind.toString, String.toList_append, List.append_assoc,
        List.append_cancel_left_eq] at h
      obtain ⟨rfl,hmore⟩ := Numeral.legible_byte trivial trivial h
      obtain ⟨rfl,hrest⟩ := Numeral.legible_byte trivial trivial (List.append_cancel_left hmore)
      exact ⟨rfl,hrest⟩
    | _ => simp [Kind.toString] at h
  | range lo hi =>
    cases kind' with
    | range lo' hi' =>
      simp only [Kind.toString, String.toList_append, List.append_assoc,
        List.append_cancel_left_eq] at h
      obtain ⟨rfl,hmore⟩ := Numeral.legible_byte trivial trivial h
      obtain ⟨rfl,hrest⟩ := Numeral.legible_byte trivial trivial (List.append_cancel_left hmore)
      exact ⟨rfl,hrest⟩
    | _ => simp [Kind.toString] at h
  | charClass set =>
    cases kind' with
    | charClass set' =>
      simp only [Kind.toString, String.toList_append, List.append_assoc,
        List.append_cancel_left_eq] at h
      obtain ⟨rfl,hrest⟩ := ByteSet.legible_toString trivial trivial h
      exact ⟨rfl,hrest⟩
    | _ => simp [Kind.toString] at h

end Transition

namespace Graph
open Transition (Kind)
variable {g : Graph} {v : Vertex}

/-- The mark of a match, written behind a condition. -/
def matchText (label? : Option Nat) : List Char :=
  label?.toList.flatMap fun label => " MATCH(".toList ++ ((toString label).toList ++ [')'])

def conditionText : Option (Kind × Option Nat) → List Char
  | some (kind,label?) => kind.toString.toList ++ matchText label?
  | none => "START".toList

theorem toList_transitionText (t? : Option Transition) :
    (transitionText t?).toList = conditionText (t?.map Transition.shown) := by
  cases t? with
  | none => rfl
  | some t =>
    change t.toString.toList = t.kind.toString.toList ++ matchText t.shown.2
    rw [Transition.toString, Transition.shown]
    cases t.isMatch <;> simp [matchText]

theorem legible_matchText : Legible (fun rest => ¬ " MATCH(".toList <+: rest) matchText := by
  have hlabel : Legible (fun _ => True) fun n : Nat => (toString n).toList ++ [')'] := by
    intro m n rest rest' _ _ h
    simp only [Numeral.toString_eq_decimal, List.append_assoc] at h
    obtain ⟨rfl,hclose⟩ := Numeral.legible_decimal 0 (by simp [Numeral.EndsNumeral])
      (by simp [Numeral.EndsNumeral]) h
    exact ⟨rfl,List.append_cancel_left hclose⟩
  intro label? label?' rest rest' hrest hrest' h
  obtain ⟨hlabels,hend⟩ := Legible.flatMap " MATCH(".toList hlabel (fun _ => trivial) ⟨trivial,hrest⟩
    ⟨trivial,hrest'⟩ h
  exact ⟨by simpa using congrArg List.head? hlabels,hend⟩

theorem legible_conditionText :
    Legible (fun rest => ¬ " MATCH(".toList <+: rest) conditionText := by
  have hstart : ∀ {kind : Kind} {rest rest' : List Char},
      "START".toList ++ rest ≠ kind.toString.toList ++ rest' := by
    intro kind rest rest' h
    cases kind <;> simp [Kind.toString] at h
  intro c c' rest rest' hrest hrest' h
  match c, c' with
  | none, none => exact ⟨rfl,List.append_cancel_left h⟩
  | none, some (kind,label?) =>
    rw [conditionText, conditionText, List.append_assoc] at h
    exact absurd h hstart
  | some (kind,label?), none =>
    rw [conditionText, conditionText, List.append_assoc] at h
    exact absurd h.symm hstart
  | some (kind,label?), some (kind',label?') =>
    rw [conditionText, conditionText, List.append_assoc, List.append_assoc] at h
    obtain ⟨rfl,hmark⟩ := Transition.legible_kind trivial trivial h
    obtain ⟨rfl,hend⟩ := legible_matchText hrest hrest' hmark
    exact ⟨rfl,hend⟩

/-- The successors behind the arrow, if there are any. -/
def arrowText : List Vertex → List Char
  | [] => []
  | w :: ws => " ->".toList ++ (w :: ws).flatMap fun w => [' '] ++ (Numeral.decimal 5 w).toList

theorem legible_arrowText : Legible (fun rest => rest.head? = some '\n') arrowText := by
  have hitems := Legible.flatMap [' '] (Numeral.legible_decimal 5)
    (fun rest => by simp [Numeral.EndsNumeral])
  have hend : ∀ {rest : List Char}, rest.head? = some '\n' →
      Numeral.EndsNumeral rest ∧ ¬ [' '] <+: rest := by
    intro rest hrest
    obtain ⟨more,rfl⟩ := List.head?_eq_some_iff.mp hrest
    simp [Numeral.EndsNumeral]
  have hempty : ∀ {w : Vertex} {ws : List Vertex} {rest rest' : List Char},
      rest.head? = some '\n' → arrowText [] ++ rest ≠ arrowText (w :: ws) ++ rest' := by
    intro w ws rest rest' hrest h
    obtain ⟨more,rfl⟩ := List.head?_eq_some_iff.mp hrest
    simp [arrowText] at h
  intro ws ws' rest rest' hrest hrest' h
  cases ws with
  | nil =>
    cases ws' with
    | nil => exact ⟨rfl,h⟩
    | cons w' ws' => exact absurd h (hempty hrest)
  | cons w ws =>
    cases ws' with
    | nil => exact absurd h.symm (hempty hrest')
    | cons w' ws' =>
      rw [arrowText, arrowText, List.append_assoc, List.append_assoc] at h
      exact hitems (hend hrest) (hend hrest') (List.append_cancel_left h)

/-- What the line of a vertex shows: its index, its condition and its successors. -/
abbrev Row := Vertex × Option (Kind × Option Nat) × List Vertex

def rowText : Row → List Char
  | (v,c,ws) =>
    (Numeral.decimal 5 v).toList ++ (": ".toList ++ (conditionText c ++ (arrowText ws ++ ['\n'])))

theorem legible_rowText : Legible (fun _ => True) rowText := by
  have hcolon : ∀ text : List Char, Numeral.EndsNumeral (": ".toList ++ text) := by
    simp [Numeral.EndsNumeral]
  have harrow : ∀ (ws : List Vertex) (rest : List Char),
      ¬ " MATCH(".toList <+: arrowText ws ++ ('\n' :: rest) := by
    intro ws rest
    cases ws <;> simp [arrowText]
  rintro ⟨v,c,ws⟩ ⟨v',c',ws'⟩ rest rest' _ _ h
  simp only [rowText, List.append_assoc, List.singleton_append] at h
  obtain ⟨rfl,hcondition⟩ := Numeral.legible_decimal 5 (hcolon _) (hcolon _) h
  obtain ⟨rfl,hedges⟩ := legible_conditionText (harrow ws rest) (harrow ws' rest')
    (List.append_cancel_left hcondition)
  obtain ⟨rfl,hline⟩ := legible_arrowText rfl rfl hedges
  exact ⟨rfl,(List.cons.inj hline).2⟩

/-- What is shown of a vertex. -/
def row (g : Graph) (v : Vertex) : Row := (v,(g.label v).map Transition.shown,g.outs v)

theorem toList_vertexText (hv : v < g.size) :
    (vertexText g.lists v g.vertices[v]).toList = rowText (g.row v) := by
  have hcondition : g.vertices[v].transition = g.label v := by
    simp [label, Array.getElem?_eq_getElem hv]
  have hedges : g.vertices[v].outgoing.toList g.lists = g.outs v := by
    rw [outs, neighbours, adjacency_eq hv]
    rfl
  rw [vertexText, hcondition, hedges, row, rowText, ← toList_transitionText]
  cases g.outs v <;> simp [arrowText, List.flatMap_map]

theorem toList_toString (g : Graph) :
    g.toString.toList = '\n' :: ((List.range g.size).map g.row).flatMap rowText := by
  have hrows : g.vertices.toList.zipIdx.map (fun p => (vertexText g.lists p.2 p.1).toList) =
      (List.range g.size).map fun v => rowText (g.row v) := by
    apply List.ext_getElem
    · simp [size]
    · intro v hleft hright
      have hv : v < g.size := by simpa using hright
      simp only [List.getElem_map, List.getElem_zipIdx, List.getElem_range, Nat.zero_add]
      exact toList_vertexText hv
  rw [Graph.toString, String.toList_append, String.toList_join, List.flatMap_map, List.flatMap_map,
    List.flatMap_def, List.flatMap_def, ← hrows]
  rfl

/-- Two graphs have the same text if and only if they show the same. -/
theorem toString_eq_iff (g g' : Graph) : g.toString = g'.toString ↔
    g.size = g'.size ∧ ∀ v, g.outs v = g'.outs v ∧
      Option.Rel Transition.LooksLike (g.label v) (g'.label v) := by
  have hrows : g.toString = g'.toString ↔
      (List.range g.size).map g.row = (List.range g'.size).map g'.row := by
    have hinj := Legible.flatMap_inj legible_rowText (by simp [rowText])
    rw [← String.toList_inj, toList_toString, toList_toString, List.cons.injEq]
    simpa using hinj.eq_iff
  rw [hrows]
  constructor
  · intro h
    have hsize : g.size = g'.size := by simpa using congrArg List.length h
    refine ⟨hsize,fun v => ?_⟩
    by_cases hv : v < g.size
    · have hrow : g.row v = g'.row v := by
        rw [← hsize] at h
        exact List.map_inj_left.mp h v (List.mem_range.mpr hv)
      obtain ⟨-,hlabel,houts⟩ : v = v ∧ _ ∧ _ := by simpa [row] using hrow
      exact ⟨houts,Transition.map_shown_eq_iff.mp hlabel⟩
    · rw [Nat.not_lt] at hv
      have hv' : g'.size ≤ v := by rwa [← hsize]
      rw [outs_of_size_le hv, outs_of_size_le hv', label_of_size_le hv, label_of_size_le hv']
      exact ⟨rfl,.none⟩
  · rintro ⟨hsize,hshown⟩
    rw [hsize]
    refine List.map_congr_left fun v _ => ?_
    obtain ⟨houts,hlabel⟩ := hshown v
    rw [row, row, houts, Transition.map_shown_eq_iff.mpr hlabel]

end Graph
end ByteAutomata

import ByteAutomata.Proofs.Builder.Layout
import ByteAutomata.Proofs.Graph.Edges
import ByteAutomata.Proofs.Tree.Reading

/-! # The rules of construction

Each rule turns an assembly whose topmost fragments are those of the operands into one whose
topmost fragment is that of the operator. What lies below on the stack, and all vertices that
were there before, stay as they are. -/
namespace ByteAutomata

/-- The vertices of the graph, in order; an open gap is filled with nothing. -/
structure Graph.Shows (g : Graph) (slots : List Slot) : Prop where
  sound : g.Sound
  size : g.size = slots.length
  vertex : ∀ (v : Nat) (slot : Slot), slots[v]? = some slot →
    g.outs v = slot.gap.targets ∧ g.label v = slot.label

namespace Graph.Shows
variable {g g' : Graph} {slots pre post mid : List Slot} {slot slot' : Slot}

theorem addLabeled (h : g.Shows slots) (t : Transition) :
    (g.addLabeled t).Shows (slots ++ [⟨some t,.bare⟩]) := by
  refine ⟨h.sound.addLabeled t,by simp [h.size],fun v slot hv => ?_⟩
  rw [outs_addLabeled, label_addLabeled, h.size]
  rcases Nat.lt_or_ge v slots.length with hlt | hge
  · rw [List.getElem?_append_left hlt] at hv
    rw [if_neg (Nat.ne_of_lt hlt)]
    exact h.vertex v slot hv
  · rw [List.getElem?_append_right hge] at hv
    obtain ⟨hlt,hslot⟩ := List.getElem?_eq_some_iff.mp hv
    have hv' : v = slots.length := by
      simp only [List.length_cons, List.length_nil] at hlt
      omega
    subst hv'
    obtain rfl : ⟨some t,.bare⟩ = slot := by simpa using hslot
    rw [outs_of_size_le h.size.le, if_pos rfl]
    exact ⟨rfl,rfl⟩

/-- Other successors of one vertex. -/
theorem replace (h : g.Shows (pre ++ slot :: post)) (slot' : Slot) (hsame : g.SameVertices g')
    (houts : ∀ u, g'.outs u = if u = pre.length then slot'.gap.targets else g.outs u)
    (hlabel : slot'.label = slot.label) : g'.Shows (pre ++ slot' :: post) := by
  have hsize : g'.size = (pre ++ slot' :: post).length := by
    rw [hsame.size, h.size]
    simp
  refine ⟨hsame.sound,hsize,fun v s hv => ?_⟩
  rw [houts, hsame.label]
  rcases Nat.lt_trichotomy v pre.length with hlt | rfl | hgt
  · rw [List.getElem?_append_left hlt] at hv
    rw [if_neg (Nat.ne_of_lt hlt)]
    exact h.vertex v s (by rw [List.getElem?_append_left hlt, hv])
  · obtain rfl : slot' = s := by simpa using hv
    have hold := h.vertex pre.length slot (by simp)
    rw [if_pos rfl]
    exact ⟨rfl,hold.2.trans hlabel.symm⟩
  · obtain ⟨k,rfl⟩ := Nat.exists_eq_add_of_lt hgt
    rw [if_neg (Nat.ne_of_gt hgt)]
    refine h.vertex _ s ?_
    rw [List.getElem?_append_right (by omega)] at hv ⊢
    rw [show pre.length + k + 1 - pre.length = k + 1 by omega] at hv ⊢
    simpa using hv

/-- Another condition on one vertex. -/
theorem mark (h : g.Shows (pre ++ slot :: post)) (label : Nat) (isMatch : Bool) :
    ∃ g', g.mark pre.length label isMatch = .ok g' ∧ g'.Shows (pre ++
      { slot with label := slot.label.map fun t => { t with label, isMatch } } :: post) := by
  have hlt : pre.length < g.size := by simp [h.size]
  obtain ⟨g',hg,hsound,hsize,houts,hlabel⟩ := h.sound.mark hlt label isMatch
  refine ⟨g',hg,hsound,by simp [hsize, h.size],fun v s hv => ?_⟩
  rw [houts, hlabel]
  by_cases hself : v = pre.length
  · subst hself
    obtain rfl : _ = s := by simpa using hv
    obtain ⟨hold,hold'⟩ := h.vertex pre.length slot (by simp)
    rw [if_pos rfl, hold']
    exact ⟨hold,rfl⟩
  · rw [if_neg hself]
    refine h.vertex v s ?_
    rcases Nat.lt_or_ge v pre.length with hv' | hv'
    · rwa [List.getElem?_append_left hv'] at hv ⊢
    · obtain ⟨k,rfl⟩ := Nat.exists_eq_add_of_le hv'
      cases k with
      | zero => exact absurd rfl hself
      | succ k =>
        rw [List.getElem?_append_right hv'] at hv ⊢
        rw [Nat.add_sub_cancel_left] at hv ⊢
        simpa using hv

/-- Edges from the open vertices of one part to common targets fill their gaps. -/
theorem link (h : g.Shows (pre ++ mid ++ post)) {ws : List Vertex} (hws : ∀ w ∈ ws, w < g.size)
    (yields stays : Bool) :
    ∃ g', g.link (Slot.exits pre.length mid) ws = .ok g' ∧
      g'.Shows (pre ++ mid.map (Slot.lead yields ws stays) ++ post) := by
  induction mid generalizing g pre with
  | nil => exact ⟨g,rfl,h⟩
  | cons slot mid ih =>
    rw [List.append_assoc, List.cons_append] at h
    have hsize := h.size
    have hlt : pre.length < g.size := by simp [hsize]
    obtain ⟨houts,-⟩ := h.vertex pre.length slot (by simp)
    let slot' := slot.lead yields ws stays
    have htargets : slot'.gap.targets = _ := slot.gap.targets_lead yields stays ws
    have hshift : ∀ s : Slot, pre ++ [s] ++ mid ++ post = pre ++ s :: (mid ++ post) := by simp
    have hlength : ∀ s : Slot, (pre ++ [s]).length = pre.length + 1 := by simp
    rw [List.map_cons]
    by_cases hopen : slot.gap.isOpen = true
    · have hpos : slot.gap.before.length ≤ (g.outs pre.length).length := by
        simp [houts, Gap.targets]
      obtain ⟨g₁,h₁,hsame,houts₁⟩ := h.sound.addEdgesAt hlt hws hpos
      have hfill : spliced slot.gap.before.length ws (g.outs pre.length) = slot'.gap.targets := by
        rw [htargets, if_pos hopen, houts, spliced, Gap.take_before, Gap.drop_before]
      rw [hfill] at houts₁
      have hshows := h.replace slot' hsame houts₁ rfl
      rw [← hshift] at hshows
      have hws₁ : ∀ w ∈ ws, w < g₁.size := fun w hw => hsame.size ▸ hws w hw
      obtain ⟨g₂,h₂,hfinal⟩ := ih hshows hws₁
      rw [hlength] at h₂
      refine ⟨g₂,?_,?_⟩
      · rw [Slot.exits, if_pos hopen, Graph.link, List.foldlM_cons]
        simp only [h₁]
        exact h₂
      · simpa [slot'] using hfinal
    · rw [← hshift] at h
      obtain ⟨g₂,h₂,hfinal⟩ := ih h hws
      rw [hlength] at h₂
      have hkeep : slot.lead yields ws stays = slot := by simp [Slot.lead, Gap.lead, hopen]
      refine ⟨g₂,?_,?_⟩
      · rw [Slot.exits, if_neg hopen]
        exact h₂
      · simpa [hkeep] using hfinal

/-- A new vertex at the end of a row, with an edge from the one before. -/
theorem appendByte (s : BuilderSettings) {ts : List Transition} {t : Transition}
    (h : g.Shows (slots ++ Slot.row slots.length (ts ++ [t]))) (b : UInt8) :
    ∃ g', Assembly.appendByte s g b = .ok g' ∧ g'.Shows
      (slots ++ Slot.row slots.length (ts ++ [t] ++ [Assembly.byteTransition s b])) := by
  let u := Assembly.byteTransition s b
  obtain ⟨inner,hinner,h₁,h₂⟩ := Slot.row_append_pair slots.length ts t u
  have hsize : g.size = slots.length + ts.length + 1 := by
    simp [h.size, Nat.add_assoc]
  rw [h₁] at h
  have hnew := h.addLabeled u
  have hshape : slots ++ (inner ++ [(⟨some t,.bare⟩ : Slot)]) ++ [⟨some u,.bare⟩] =
      (slots ++ inner) ++ ⟨some t,.bare⟩ :: [⟨some u,.bare⟩] := by simp
  rw [hshape] at hnew
  have hprev : g.size - 1 = (slots ++ inner).length := by simp [hsize, hinner]
  have hlast : g.size - 1 < (g.addLabeled u).size := by
    rw [size_addLabeled]
    omega
  have hself : g.size < (g.addLabeled u).size := by simp
  obtain ⟨g',he,hsame,houts⟩ := hnew.sound.addEdge hlast hself
  refine ⟨g',he,?_⟩
  obtain ⟨hbare,-⟩ := hnew.vertex (slots ++ inner).length ⟨some t,.bare⟩ (by simp)
  simp only [hprev, hbare, Gap.targets, Gap.bare, List.nil_append] at houts
  have hclosed := hnew.replace ⟨some t,.closed [g.size]⟩ hsame
    (by simpa only [Gap.targets_closed] using houts) rfl
  have hrow : slots ++ Slot.row slots.length (ts ++ [t] ++ [u]) =
      (slots ++ inner) ++ ⟨some t,.closed [g.size]⟩ :: [⟨some u,.bare⟩] := by
    rw [List.append_assoc ts, List.singleton_append, h₂, hsize]
    simp
  rw [hrow]
  exact hclosed

theorem appendBytes (s : BuilderSettings) (ts : List Transition) (t : Transition)
    (h : g.Shows (slots ++ Slot.row slots.length (ts ++ [t]))) (bytes : List UInt8) :
    ∃ g', bytes.foldlM (Assembly.appendByte s) g = .ok g' ∧ g'.Shows
      (slots ++ Slot.row slots.length (ts ++ [t] ++ bytes.map (Assembly.byteTransition s))) := by
  induction bytes generalizing g ts t with
  | nil => exact ⟨g,rfl,by simpa using h⟩
  | cons b bytes ih =>
    obtain ⟨g₁,h₁,hshows₁⟩ := h.appendByte s b
    obtain ⟨g₂,h₂,hshows₂⟩ := ih _ _ hshows₁
    refine ⟨g₂,?_,?_⟩
    · rw [List.foldlM_cons, h₁]
      exact h₂
    · simpa using hshows₂

end Graph.Shows

/-- The fragment of a term whose vertices begin at `base`. -/
def Fragment.ofTerm (s : BuilderSettings) (e : Term) (base : Nat) (id : NodeId) : Fragment where
  entries := (e.front s base).targets
  exits := Slot.exits base (e.slots s base)
  skip := (e.front s base).skip
  node := some id

namespace Fragment
variable (s : BuilderSettings) (l r e : Term) (base : Nat) (id il ir : NodeId)

theorem yields_ofTerm :
    (ofTerm s l base il).yields (ofTerm s r (base + l.width s) ir) = l.yields s r := by
  have hl := (l.sameShape_front (s := s) base 0).skip
  have hr := (r.sameShape_front (s := s) (base + l.width s) 0).skip
  rw [Term.yields, ← hl, ← hr]
  rfl

/-- The entries of the second operand stand in the gap of the first ones. -/
theorem spliceEntries_ofTerm :
    (ofTerm s l base il).spliceEntries (ofTerm s r (base + l.width s) ir) =
      .ok ((l.concatenation r).front s base).targets := by
  unfold spliceEntries
  simp only [ofTerm, Gap.skip, Term.front, Gap.targets_sequence]
  cases (l.front s base).isOpen with
  | false => rfl
  | true =>
    have hle : (l.front s base).before.length ≤ (l.front s base).targets.length := by
      simp [Gap.targets]
    simp only [if_true, if_pos hle, Gap.take_before, Gap.drop_before]

/-- The exits of the first operand, behind the edges to the second one unless they yield. -/
def moved (first second : Fragment) : Fragment :=
  if first.yields second then first else first.advanceExits second.entries.length

theorem exits_moved :
    ((ofTerm s l base il).moved (ofTerm s r (base + l.width s) ir)).exits =
      (Slot.exits base (l.slots s base)).map fun (v,pos) =>
        (v,pos + if l.yields s r then 0 else (r.front s (base + l.width s)).targets.length) := by
  unfold moved
  rw [yields_ofTerm]
  cases l.yields s r with
  | true => simp [ofTerm]
  | false => rfl

theorem concatenate_ofTerm :
    ((ofTerm s l base il).moved (ofTerm s r (base + l.width s) ir)).concatenate
      (ofTerm s r (base + l.width s) ir) id = .ok (ofTerm s (l.concatenation r) base id) := by
  have hentries : ((ofTerm s l base il).moved (ofTerm s r (base + l.width s) ir)).spliceEntries
      (ofTerm s r (base + l.width s) ir) = .ok ((l.concatenation r).front s base).targets := by
    rw [← spliceEntries_ofTerm s l r base il ir]
    unfold moved
    split <;> rfl
  have hskip : ((ofTerm s l base il).moved (ofTerm s r (base + l.width s) ir)).skip =
      (l.front s base).skip := by
    unfold moved
    split <;> rfl
  rw [concatenate, hentries, ok_bind, hskip, exits_moved]
  simp only [ofTerm, isSkippable, Term.slots, Slot.exits_append, Slot.exits_lead, List.length_map,
    Term.length_slots, Term.front, Gap.skip_sequence, Gap.isSome_skip]
  congr 2
  cases (r.front s (base + l.width s)).isOpen <;> rfl

end Fragment

/-- An assembly that is not finished yet. -/
structure Assembly.Holds (a : Assembly) (slots : List Slot) (stack : List Fragment) : Prop where
  graph : a.graph.Shows slots
  stack : a.stack = stack
  isGood : a.isGood = false

namespace Assembly
variable {s : BuilderSettings} {a : Assembly} {slots : List Slot} {stack : List Fragment}
variable {l r e : Term} {id il ir : NodeId}

theorem Holds.leaf (h : a.Holds slots stack) (t : Transition) :
    (a.leaf id t).Holds (slots ++ Slot.row slots.length [t])
      (.single slots.length (some id) :: stack) where
  graph := h.graph.addLabeled t
  stack := by rw [Assembly.leaf, h.graph.size, h.stack]
  isGood := h.isGood

/-- A leaf adds its vertices in a row. -/
theorem Holds.apply_leaf (h : a.Holds slots stack) {l : Leaf} (hl : l.transitions s ≠ none)
    (label : Nat) (id : NodeId) :
    ∃ a', a.apply s label id l.node.kind = .ok a' ∧ a'.Holds
      (slots ++ (Term.leaf l).slots s slots.length)
      (.ofTerm s (.leaf l) slots.length id :: stack) := by
  obtain ⟨ts,hts⟩ := Option.ne_none_iff_exists'.mp hl
  have hne : ts ≠ [] := fun hnil => l.transitions_ne_nil s (hnil ▸ hts)
  have hfragment : Fragment.ofTerm s (.leaf l) slots.length id =
      .path slots.length (slots.length + ts.length - 1) (some id) := by
    rw [Fragment.ofTerm, Term.slots, hts, Option.getD_some, Slot.exits_row _ hne]
    simp [Fragment.path, Term.front, Gap.closed, Gap.targets, Gap.skip]
  rw [hfragment, Term.slots, hts, Option.getD_some]
  cases l with
  | literal n =>
    obtain ⟨bytes,hb,rfl⟩ := Option.map_eq_some_iff.mp hts
    obtain ⟨b,rest,rfl⟩ := List.exists_cons_of_ne_nil (fun h => hne (List.map_eq_nil_iff.mpr h))
    have hfirst := h.graph.addLabeled (byteTransition s b)
    obtain ⟨g,hg,hshows⟩ :=
      Graph.Shows.appendBytes s [] (byteTransition s b) hfirst rest
    refine ⟨{ a with graph := g, stack := .path a.graph.size (g.size - 1) (some id) :: a.stack },
      ?_,hshows,?_,h.isGood⟩
    · change a.literal s id n = _
      rw [Assembly.literal, hb, Option.getD_some, Assembly.spell]
      simp only [hg]
      rfl
    · have hlength : ([byteTransition s b] ++ rest.map (byteTransition s)).length =
          ((b :: rest).map (byteTransition s)).length := rfl
      have hsize := hshows.size
      rw [List.length_append, Slot.length_row, List.nil_append, hlength] at hsize
      rw [h.graph.size, h.stack, hsize]
  | dot =>
    obtain rfl : [Transition.any] = ts := Option.some.inj hts
    exact ⟨a.leaf id .any,rfl,h.leaf .any⟩
  | charClass set =>
    obtain rfl : [_] = ts := Option.some.inj hts
    exact ⟨a.charClass s id set,rfl,h.leaf _⟩

theorem Holds.alternate
    (h : a.Holds (slots ++ l.slots s slots.length ++ r.slots s (slots.length + l.width s))
      (.ofTerm s r (slots.length + l.width s) ir :: .ofTerm s l slots.length il :: stack))
    (id : NodeId) :
    ∃ a', a.alternate id = .ok a' ∧ a'.Holds
      (slots ++ (l.alternation r).slots s slots.length)
      (.ofTerm s (l.alternation r) slots.length id :: stack) := by
  obtain ⟨graph,stack',good⟩ := a
  obtain ⟨hshows,rfl,hgood⟩ := h
  refine ⟨_,rfl,by rwa [Term.slots, ← List.append_assoc],?_,hgood⟩
  have hexits : Slot.exits slots.length ((l.alternation r).slots s slots.length) =
      Slot.exits slots.length (l.slots s slots.length) ++
        Slot.exits (slots.length + l.width s) (r.slots s (slots.length + l.width s)) := by
    rw [Term.slots, Slot.exits_append, Term.length_slots]
  rw [Fragment.ofTerm.eq_def s (l.alternation r), hexits, Term.front, Gap.targets_alternate,
    Gap.skip_alternate]
  rfl

/-- Entries of a part of a graph exist. -/
theorem Holds.front_lt {pre post : List Slot} (h : a.Holds (pre ++ e.slots s pre.length ++ post) stack)
    (he : e.Encodable s) : ∀ w ∈ (e.front s pre.length).targets, w < a.graph.size := by
  intro w hw
  have hbounds := e.front_bounds pre.length he (Leaf.transitions_ne_nil s) w hw
  have hsize : pre.length + e.width s ≤ a.graph.size := by
    rw [h.graph.size, List.length_append, List.length_append, Term.length_slots]
    exact Nat.le_add_right _ _
  exact Nat.lt_of_lt_of_le hbounds.2 hsize

theorem concatenate_eq {g g' : Graph} {first second f : Fragment} {good : Bool}
    (hg : g.link first.exits second.entries = .ok g')
    (hf : (first.moved second).concatenate second id = .ok f) :
    Assembly.concatenate ⟨g,second :: first :: stack,good⟩ id = .ok ⟨g',f :: stack,good⟩ := by
  rw [Fragment.moved] at hf
  simp only [Assembly.concatenate, onTopTwo, hg, ok_bind, hf]
  rfl

theorem Holds.concatenate
    (h : a.Holds (slots ++ l.slots s slots.length ++ r.slots s (slots.length + l.width s))
      (.ofTerm s r (slots.length + l.width s) ir :: .ofTerm s l slots.length il :: stack))
    (hr : r.Encodable s) (id : NodeId) :
    ∃ a', a.concatenate id = .ok a' ∧ a'.Holds
      (slots ++ (l.concatenation r).slots s slots.length)
      (.ofTerm s (l.concatenation r) slots.length id :: stack) := by
  have hlength : (slots ++ l.slots s slots.length).length = slots.length + l.width s := by simp
  have hws : ∀ w ∈ (r.front s (slots.length + l.width s)).targets, w < a.graph.size := by
    have h' := h
    rw [← hlength, ← List.append_nil (_ ++ r.slots s _)] at h'
    rw [← hlength]
    exact h'.front_lt hr
  obtain ⟨graph,stack',good⟩ := a
  obtain ⟨hshows,rfl,hgood⟩ := h
  obtain ⟨g,hg,hshows'⟩ := hshows.link hws (l.yields s r)
    (r.front s (slots.length + l.width s)).isOpen
  have hfragment := Fragment.concatenate_ofTerm s l r slots.length id il ir
  refine ⟨_,concatenate_eq hg hfragment,?_,rfl,hgood⟩
  rwa [Term.slots, ← List.append_assoc]

theorem repeatTop_eq {g g' : Graph} {top : Fragment} {good : Bool}
    (hg : g.link top.exits top.entries = .ok g') (greedy : Bool) :
    Assembly.repeatTop ⟨g,top :: stack,good⟩ id greedy =
      .ok ⟨g',{ if greedy then top.advanceExits top.entries.length else top with node := some id }
        :: stack,good⟩ := by
  simp only [Assembly.repeatTop, onTop, hg, ok_bind]
  rfl

/-- Edges from the exits of the operand back to its entries. -/
theorem Holds.repeatTop
    (h : a.Holds (slots ++ e.slots s slots.length) (.ofTerm s e slots.length il :: stack))
    (he : e.Encodable s) (id : NodeId) (greedy : Bool) :
    ∃ a', a.repeatTop id greedy = .ok a' ∧ a'.Holds
      (slots ++ (Term.repetition 1 none greedy e).slots s slots.length)
      (.ofTerm s (.repetition 1 none greedy e) slots.length id :: stack) := by
  rw [← List.append_nil (slots ++ _)] at h
  have hws := h.front_lt he
  obtain ⟨graph,stack',good⟩ := a
  obtain ⟨hshows,rfl,hgood⟩ := h
  obtain ⟨g,hg,hshows'⟩ := hshows.link hws (!greedy) true
  rw [List.append_nil] at hshows'
  refine ⟨_,repeatTop_eq hg greedy,hshows',?_,hgood⟩
  cases greedy <;>
    simp [Fragment.ofTerm, Fragment.advanceExits, Term.slots, Term.front, Slot.exits_lead]

/-- The operand need not be taken. -/
theorem Holds.skipTop {max : Option Nat} (min : Nat) {greedy : Bool} (id : NodeId)
    (h : a.Holds (slots ++ (Term.repetition min max greedy e).slots s slots.length)
      (.ofTerm s (.repetition (min + 1) max greedy e) slots.length il :: stack)) :
    ∃ a', a.skipTop id greedy = .ok a' ∧ a'.Holds
      (slots ++ (Term.repetition 0 max greedy e).slots s slots.length)
      (.ofTerm s (.repetition 0 max greedy e) slots.length id :: stack) := by
  obtain ⟨graph,stack',good⟩ := a
  obtain ⟨hshows,rfl,hgood⟩ := h
  refine ⟨_,rfl,hshows,?_,hgood⟩
  cases greedy <;>
    simp [Fragment.ofTerm, Fragment.skipLast, Fragment.skipFirst, Term.slots, Term.front,
      Gap.skip_optional]

theorem Holds.repetition {min : Nat} {max : Option Nat} {greedy : Bool}
    (h : a.Holds (slots ++ e.slots s slots.length) (.ofTerm s e slots.length il :: stack))
    (he : e.Encodable s) (hbasic : (Term.repetition min max greedy e).IsBasic) (id : NodeId) :
    ∃ a', a.repetition id min max greedy = .ok a' ∧ a'.Holds
      (slots ++ (Term.repetition min max greedy e).slots s slots.length)
      (.ofTerm s (.repetition min max greedy e) slots.length id :: stack) := by
  cases hbasic with
  | optional _ _ =>
    have hsame : Fragment.ofTerm s (.repetition 1 (some 1) greedy e) slots.length il =
        .ofTerm s e slots.length il := by
      simp [Fragment.ofTerm, Term.front, Term.slots]
    rw [← hsame] at h
    exact Holds.skipTop 0 id h
  | star _ _ =>
    obtain ⟨a₁,h₁,hholds⟩ := h.repeatTop he id greedy
    obtain ⟨a₂,h₂,hholds₂⟩ := Holds.skipTop 0 id hholds
    refine ⟨a₂,?_,hholds₂⟩
    rw [Assembly.repetition, h₁, ok_bind, h₂]
  | plus _ _ => exact h.repeatTop he id greedy

end Assembly
end ByteAutomata

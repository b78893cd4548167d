import ByteAutomata.Builder.Assembly
import ByteAutomata.Proofs.Term.Language

/-! # The layout of a term

The automaton of a term as a list of vertices, told for the term as a whole. What follows a term
is not known yet, so a list of targets has a gap where the targets that follow belong: the entries
of a term have one if the term can be skipped, and the successors of a vertex if the term can end
there. Operators fill the gaps, and what stays open is handed on. -/
namespace ByteAutomata

/-- Targets in order, with a place between them for the ones that follow, if it is open. -/
structure Gap where
  before : List Vertex
  after : List Vertex
  isOpen : Bool
deriving DecidableEq

namespace Gap

def closed (targets : List Vertex) : Gap := ⟨targets,[],false⟩

/-- Nothing but what follows. -/
def bare : Gap := ⟨[],[],true⟩

def targets (g : Gap) : List Vertex := g.before ++ g.after

/-- The place of the gap, counted in targets. -/
def skip (g : Gap) : Option Nat := if g.isOpen then some g.before.length else none

/-- Fills the gap with targets, beside which it stays open or not: in front of them if `yields`
holds, and behind them otherwise. -/
def lead (yields : Bool) (ws : List Vertex) (stays : Bool) (g : Gap) : Gap :=
  if !g.isOpen then g
  else if yields then ⟨g.before,ws ++ g.after,stays⟩
  else ⟨g.before ++ ws,g.after,stays⟩

/-- Entries of an alternative on the left and one on the right, of which the first gap counts. -/
def alternate (g h : Gap) : Gap :=
  if g.isOpen then ⟨g.before,g.after ++ h.targets,true⟩ else ⟨g.targets ++ h.before,h.after,h.isOpen⟩

/-- The second entries in the gap of the first ones. -/
def sequence (g h : Gap) : Gap :=
  if g.isOpen then ⟨g.before ++ h.before,h.after ++ g.after,h.isOpen⟩ else g

/-- Entries that need not be taken. -/
def optional (greedy : Bool) (g : Gap) : Gap :=
  if !greedy then ⟨[],g.targets,true⟩ else if g.isOpen then g else ⟨g.targets,[],true⟩

variable (g h : Gap) (yields stays : Bool) (ws : List Vertex)

@[simp] theorem targets_closed : (closed ws).targets = ws := by simp [closed, targets]

@[simp] theorem targets_alternate : (g.alternate h).targets = g.targets ++ h.targets := by
  unfold alternate
  split <;> simp [targets]

@[simp] theorem targets_optional (greedy : Bool) : (g.optional greedy).targets = g.targets := by
  unfold optional
  repeat' split
  all_goals simp [targets]

theorem targets_sequence :
    (g.sequence h).targets = if g.isOpen then g.before ++ h.targets ++ g.after else g.targets := by
  unfold sequence
  split <;> simp [targets]

theorem targets_lead :
    (g.lead yields ws stays).targets =
      if g.isOpen then g.before ++ ws ++ g.after else g.targets := by
  unfold lead
  cases g.isOpen <;> cases yields <;> simp [targets]

theorem isOpen_lead : (g.lead yields ws stays).isOpen = (g.isOpen && stays) := by
  unfold lead
  cases h : g.isOpen <;> cases yields <;> simp [h]

@[simp] theorem isOpen_alternate : (g.alternate h).isOpen = (g.isOpen || h.isOpen) := by
  unfold alternate
  split <;> simp_all

@[simp] theorem isOpen_sequence : (g.sequence h).isOpen = (g.isOpen && h.isOpen) := by
  unfold sequence
  split <;> simp_all

@[simp] theorem isOpen_optional (greedy : Bool) : (g.optional greedy).isOpen = true := by
  unfold optional
  repeat' split
  all_goals simp_all

@[simp] theorem isSome_skip : g.skip.isSome = g.isOpen := by
  unfold skip
  split <;> simp_all

theorem skip_alternate :
    (g.alternate h).skip =
      match g.skip, h.skip with
      | some a, _ => some a
      | none, some b => some (g.targets.length + b)
      | none, none => none := by
  unfold alternate skip
  cases g.isOpen <;> cases h.isOpen <;> simp

theorem skip_sequence :
    (g.sequence h).skip =
      match g.skip, h.skip with
      | some a, some b => some (a + b)
      | _, _ => none := by
  unfold sequence skip
  cases hg : g.isOpen <;> cases hh : h.isOpen <;> simp [hg]

theorem skip_optional (greedy : Bool) :
    (g.optional greedy).skip =
      some (if greedy then min (g.skip.getD g.targets.length) g.targets.length else 0) := by
  unfold optional skip
  cases hg : g.isOpen <;> cases greedy <;> simp [hg, targets]

/-- Gaps of the same kind at the same place. -/
structure SameShape (g h : Gap) : Prop where
  before : g.before.length = h.before.length
  after : g.after.length = h.after.length
  isOpen : g.isOpen = h.isOpen

section Shape
variable {g g' h h' : Gap}

theorem SameShape.skip (hg : g.SameShape g') : g.skip = g'.skip := by
  rw [Gap.skip, Gap.skip, hg.before, hg.isOpen]

theorem SameShape.length_targets (hg : g.SameShape g') :
    g.targets.length = g'.targets.length := by
  simp [targets, hg.before, hg.after]

theorem SameShape.alternate (hg : g.SameShape g') (hh : h.SameShape h') :
    (g.alternate h).SameShape (g'.alternate h') := by
  simp only [Gap.alternate, hg.isOpen]
  split
  · exact ⟨hg.before,by simp [hg.after, hh.length_targets],rfl⟩
  · exact ⟨by simp [hh.before, hg.length_targets],hh.after,hh.isOpen⟩

theorem SameShape.sequence (hg : g.SameShape g') (hh : h.SameShape h') :
    (g.sequence h).SameShape (g'.sequence h') := by
  simp only [Gap.sequence, hg.isOpen]
  split
  · exact ⟨by simp [hg.before, hh.before],by simp [hg.after, hh.after],hh.isOpen⟩
  · exact hg

theorem SameShape.optional (hg : g.SameShape g') (greedy : Bool) :
    (g.optional greedy).SameShape (g'.optional greedy) := by
  simp only [Gap.optional, hg.isOpen]
  repeat' split
  · exact ⟨rfl,hg.length_targets,rfl⟩
  · exact hg
  · exact ⟨hg.length_targets,rfl,rfl⟩

end Shape

theorem take_before : g.targets.take g.before.length = g.before := List.take_left

theorem drop_before : g.targets.drop g.before.length = g.after := List.drop_left

end Gap

/-- A vertex: the condition on the byte that enters it, and its successors. -/
structure Slot where
  label : Option Transition
  gap : Gap
deriving DecidableEq

namespace Slot

def lead (yields : Bool) (ws : List Vertex) (stays : Bool) (s : Slot) : Slot :=
  { s with gap := s.gap.lead yields ws stays }

/-- Vertices in a row from `base` on, of which the last one is open. -/
def row (base : Nat) : List Transition → List Slot
  | [] => []
  | [t] => [⟨some t,.bare⟩]
  | t :: rest => ⟨some t,.closed [base + 1]⟩ :: row (base + 1) rest

/-- The open ones among vertices from `base` on, each with the place of its gap. -/
def exits (base : Nat) : List Slot → List (Vertex × Nat)
  | [] => []
  | s :: rest =>
    if s.gap.isOpen then (base,s.gap.before.length) :: exits (base + 1) rest
    else exits (base + 1) rest

variable (base : Nat)

@[simp] theorem length_row (ts : List Transition) : (row base ts).length = ts.length := by
  fun_induction row base ts <;> simp_all

theorem row_cons {ts : List Transition} (hts : ts ≠ []) (t : Transition) :
    row base (t :: ts) = ⟨some t,.closed [base + 1]⟩ :: row (base + 1) ts := by
  cases ts with
  | nil => exact absurd rfl hts
  | cons u us => rfl

theorem mem_row {ts : List Transition} {slot : Slot} (h : slot ∈ row base ts) :
    (∃ t ∈ ts, slot.label = some t) ∧ (slot.gap = .bare ∨ ∃ v, slot.gap = .closed [v]) := by
  induction ts generalizing base with
  | nil => cases h
  | cons t ts ih =>
    by_cases hts : ts = []
    · subst hts
      obtain rfl := List.mem_singleton.mp h
      exact ⟨⟨t,List.mem_cons_self,rfl⟩,Or.inl rfl⟩
    · rw [row_cons base hts] at h
      rcases List.mem_cons.mp h with rfl | h
      · exact ⟨⟨t,List.mem_cons_self,rfl⟩,Or.inr ⟨base + 1,rfl⟩⟩
      · obtain ⟨⟨u,hu,hlabel⟩,hgap⟩ := ih (base + 1) h
        exact ⟨⟨u,List.mem_cons_of_mem t hu,hlabel⟩,hgap⟩

/-- One more vertex at the end of a row closes the one before. -/
theorem row_append_pair (ts : List Transition) (t u : Transition) :
    ∃ slots, slots.length = ts.length ∧ row base (ts ++ [t]) = slots ++ [⟨some t,.bare⟩] ∧
      row base (ts ++ [t,u]) =
        slots ++ [⟨some t,.closed [base + ts.length + 1]⟩,⟨some u,.bare⟩] := by
  induction ts generalizing base with
  | nil => exact ⟨[],rfl,rfl,rfl⟩
  | cons x ts ih =>
    obtain ⟨slots,hlength,h₁,h₂⟩ := ih (base + 1)
    refine ⟨⟨some x,.closed [base + 1]⟩ :: slots,by simp [hlength],?_,?_⟩
    · rw [List.cons_append, row_cons base (by simp), h₁]
      rfl
    · rw [List.cons_append, row_cons base (by simp), h₂]
      simp [Nat.add_comm, Nat.add_left_comm]

theorem exits_append (ss ss' : List Slot) :
    exits base (ss ++ ss') = exits base ss ++ exits (base + ss.length) ss' := by
  induction ss generalizing base with
  | nil => rfl
  | cons s ss ih =>
    rw [List.cons_append, exits, exits, ih, List.length_cons, Nat.add_assoc, Nat.add_comm 1]
    split <;> rfl

/-- The only exit of a row is its last vertex. -/
theorem exits_row {ts : List Transition} (hts : ts ≠ []) :
    exits base (row base ts) = [(base + ts.length - 1,0)] := by
  induction ts generalizing base with
  | nil => exact absurd rfl hts
  | cons t ts ih =>
    cases ts with
    | nil => rfl
    | cons u us =>
      rw [row_cons base (by simp), exits, if_neg (by simp [Gap.closed]), ih (base + 1) (by simp)]
      simp only [List.length_cons]
      congr 2
      omega

/-- Exits move behind the new targets, unless they yield. -/
theorem exits_lead (yields stays : Bool) (ws : List Vertex) (ss : List Slot) :
    exits base (ss.map (lead yields ws stays)) =
      if stays then (exits base ss).map fun (v,pos) => (v,pos + if yields then 0 else ws.length)
      else [] := by
  induction ss generalizing base with
  | nil => cases stays <;> rfl
  | cons s ss ih =>
    rw [List.map_cons, exits, exits, ih]
    unfold lead Gap.lead
    cases hopen : s.gap.isOpen <;> cases yields <;> cases stays <;> simp [hopen]

end Slot

/-- For every byte of the leaf, the condition on the vertex that it enters. -/
def Leaf.transitions (s : BuilderSettings) : Leaf → Option (List Transition)
  | literal codePoint =>
    (s.encoding.encode codePoint).map fun bytes => bytes.map (Assembly.byteTransition s)
  | dot => some [.any]
  | charClass set => some [.ofSet (if s.caseSensitive then set else set.foldCase)]

theorem Leaf.transitions_ne_nil (s : BuilderSettings) (l : Leaf) : l.transitions s ≠ some [] := by
  cases l with
  | literal n => exact s.encoding.map_encode_ne_nil n (Assembly.byteTransition s)
  | dot => simp [transitions]
  | charClass set => simp [transitions]

namespace Term

/-- Whether every literal can be represented. -/
def Encodable (s : BuilderSettings) : Term → Prop
  | leaf l => l.transitions s ≠ none
  | alternation l r => l.Encodable s ∧ r.Encodable s
  | concatenation l r => l.Encodable s ∧ r.Encodable s
  | repetition _ _ _ e => e.Encodable s

/-- The number of vertices. -/
def width (s : BuilderSettings) : Term → Nat
  | leaf l => ((l.transitions s).getD []).length
  | alternation l r => l.width s + r.width s
  | concatenation l r => l.width s + r.width s
  | repetition _ _ _ e => e.width s

/-- The entries of a term whose vertices begin at `base`. -/
def front (s : BuilderSettings) : Term → Nat → Gap
  | leaf _, base => .closed [base]
  | alternation l r, base => (l.front s base).alternate (r.front s (base + l.width s))
  | concatenation l r, base => (l.front s base).sequence (r.front s (base + l.width s))
  | repetition min _ greedy e, base =>
    if min = 0 then (e.front s base).optional greedy else e.front s base

/-- Whether the exits of `l` put what follows `r` in front of the entries of `r`. -/
def yields (s : BuilderSettings) (l r : Term) : Bool :=
  match (l.front s 0).skip, (r.front s 0).skip with
  | some a, some b => decide (b ≤ a)
  | _, _ => false

/-- The vertices of a term, the first of which is `base`. -/
def slots (s : BuilderSettings) : Term → Nat → List Slot
  | leaf l, base => Slot.row base ((l.transitions s).getD [])
  | alternation l r, base => l.slots s base ++ r.slots s (base + l.width s)
  | concatenation l r, base =>
    let next := r.front s (base + l.width s)
    (l.slots s base).map (Slot.lead (l.yields s r) next.targets next.isOpen)
      ++ r.slots s (base + l.width s)
  | repetition _ max greedy e, base =>
    if max = none then (e.slots s base).map (Slot.lead (!greedy) (e.front s base).targets true)
    else e.slots s base

variable {s : BuilderSettings} (e : Term) (base : Nat)

@[simp] theorem length_slots : (e.slots s base).length = e.width s := by
  induction e generalizing base with
  | leaf l => simp [slots, width]
  | alternation l r ihl ihr => simp [slots, width, ihl, ihr]
  | concatenation l r ihl ihr => simp [slots, width, ihl, ihr]
  | repetition min max greedy e ih =>
    rw [slots, width]
    split <;> simp [ih]

/-- The gap among the entries stands at the same place wherever the vertices begin. -/
theorem sameShape_front (base base' : Nat) : (e.front s base).SameShape (e.front s base') := by
  induction e generalizing base base' with
  | leaf l => exact ⟨rfl,rfl,rfl⟩
  | alternation l r ihl ihr => exact (ihl _ _).alternate (ihr _ _)
  | concatenation l r ihl ihr => exact (ihl _ _).sequence (ihr _ _)
  | repetition min max greedy e ih =>
    rw [front, front]
    split
    · exact (ih _ _).optional greedy
    · exact ih _ _

theorem isOpen_front : (e.front s base).isOpen = e.nullable := by
  induction e generalizing base with
  | leaf l => rfl
  | alternation l r ihl ihr => rw [front, Gap.isOpen_alternate, ihl, ihr, nullable]
  | concatenation l r ihl ihr => rw [front, Gap.isOpen_sequence, ihl, ihr, nullable]
  | repetition min max greedy e ih =>
    rw [front, nullable]
    split
    · simp_all
    · simp_all

theorem width_pos (he : e.Encodable s) (hne : ∀ l : Leaf, l.transitions s ≠ some []) :
    0 < e.width s := by
  induction e with
  | leaf l =>
    obtain ⟨ts,hts⟩ := Option.ne_none_iff_exists'.mp he
    have h : ts ≠ [] := fun h => hne l (h ▸ hts)
    rw [width, hts]
    exact List.length_pos_iff.mpr h
  | alternation l r ihl ihr => exact Nat.add_pos_left (ihl he.1) _
  | concatenation l r ihl ihr => exact Nat.add_pos_left (ihl he.1) _
  | repetition min max greedy e ih => exact ih he

/-- Entries are vertices of the term. -/
theorem front_bounds (he : e.Encodable s) (hne : ∀ l : Leaf, l.transitions s ≠ some []) :
    ∀ v : Nat, v ∈ (e.front s base).targets → base ≤ v ∧ v < base + e.width s := by
  induction e generalizing base with
  | leaf l =>
    have hpos := (leaf l).width_pos he hne
    intro v hv
    obtain rfl : v = base := by simpa [front] using hv
    omega
  | alternation l r ihl ihr =>
    intro v hv
    rw [front, Gap.targets_alternate, List.mem_append] at hv
    rw [width]
    rcases hv with hv | hv
    · have := ihl base he.1 v hv
      omega
    · have := ihr _ he.2 v hv
      omega
  | concatenation l r ihl ihr =>
    intro v hv
    have hmem : v ∈ (l.front s base).targets ∨ v ∈ (r.front s (base + l.width s)).targets := by
      rw [front, Gap.targets_sequence] at hv
      split at hv
      · simp only [List.mem_append] at hv
        rw [Gap.targets, List.mem_append]
        rcases hv with (hv | hv) | hv
        · exact Or.inl (Or.inl hv)
        · exact Or.inr hv
        · exact Or.inl (Or.inr hv)
      · exact Or.inl hv
    rw [width]
    rcases hmem with hv | hv
    · have := ihl base he.1 v hv
      omega
    · have := ihr _ he.2 v hv
      omega
  | repetition min max greedy e ih =>
    intro v hv
    have hmem : v ∈ (e.front s base).targets := by
      rw [front] at hv
      split at hv
      · rwa [Gap.targets_optional] at hv
      · exact hv
    exact ih base he v hmem

section Encodable
variable {e e' tail : Term}

theorem encodable_copies (h : tail.Encodable s ↔ e.Encodable s) (count : Nat) :
    (e.copies count tail).Encodable s ↔ e.Encodable s := by
  induction count with
  | zero => exact h
  | succ count ih => rw [copies, Encodable, ih, and_self_iff]

theorem encodable_options (greedy : Bool) (count : Nat) :
    (e.options greedy count).Encodable s ↔ e.Encodable s := by
  induction count with
  | zero => rfl
  | succ count ih => rw [options, Encodable, Encodable, ih, and_self_iff]

theorem encodable_unroll (h : e.unroll = some e') : e'.Encodable s ↔ e.Encodable s := by
  induction e generalizing e' with
  | leaf l =>
    cases h
    rfl
  | alternation l r ihl ihr =>
    obtain ⟨l',r',hl,hr,rfl⟩ := unroll_alternation.mp h
    exact and_congr (ihl hl) (ihr hr)
  | concatenation l r ihl ihr =>
    obtain ⟨l',r',hl,hr,rfl⟩ := unroll_concatenation.mp h
    exact and_congr (ihl hl) (ihr hr)
  | repetition min max greedy e ih =>
    obtain ⟨e₀,he,h⟩ := unroll_repetition.mp h
    have hoperand : e₀.Encodable s ↔ (repetition min max greedy e).Encodable s := ih he
    rw [← hoperand]
    obtain ⟨rfl,rfl,rfl⟩ | ⟨n,rfl,rfl,rfl⟩ | ⟨n,rfl,rfl,rfl⟩ | ⟨n,rfl,rfl⟩ :=
      unrollRepetition_cases h
    · rfl
    · have hplus : (repetition 1 none greedy e₀).Encodable s ↔ e₀.Encodable s := Iff.rfl
      exact encodable_copies hplus n
    · exact encodable_copies Iff.rfl n
    · exact encodable_copies (encodable_options greedy n) min

end Encodable

end Term
end ByteAutomata

import ByteAutomata.Proofs.Builder.Build
import ByteAutomata.Proofs.Builder.Meaning
import ByteAutomata.Proofs.ByteSet

/-! # The language of a layout

If every vertex stands for the strings that lead from it to an end, the entries of a term stand
for its strings of at least one byte, each followed by what comes behind the term. Loops are
solved by Arden's rule, since no round of a loop comes without a byte. -/
namespace ByteAutomata
open scoped Computability

/-- The strings of a language that are not empty. -/
def properPart (l : Language UInt8) : Language UInt8 := {w | w ∈ l ∧ w ≠ []}

section ProperPart
variable {l m : Language UInt8} {n : Bool} {w : List UInt8}

theorem mem_properPart : w ∈ properPart l ↔ w ∈ l ∧ w ≠ [] := Iff.rfl

theorem nil_notMem_properPart (l : Language UInt8) : [] ∉ properPart l := fun h => h.2 rfl

theorem properPart_of_nil_notMem (h : [] ∉ l) : properPart l = l := by
  ext w
  exact ⟨fun hw => hw.1,fun hw => ⟨hw,fun hnil => h (hnil ▸ hw)⟩⟩

theorem eq_properPart_add (hn : [] ∈ l ↔ n = true) : l = properPart l + if n then 1 else 0 := by
  ext w
  rw [Language.mem_add, mem_properPart]
  by_cases hw : w = []
  · subst hw
    cases n <;> simp_all [Language.notMem_zero]
  · cases n <;> simp [hw, Language.mem_one, Language.notMem_zero]

theorem properPart_add (l m : Language UInt8) :
    properPart (l + m) = properPart l + properPart m := by
  ext w
  simp only [mem_properPart, Language.mem_add]
  tauto

theorem properPart_one_add (l : Language UInt8) : properPart (1 + l) = properPart l := by
  ext w
  simp only [mem_properPart, Language.mem_add, Language.mem_one]
  tauto

theorem properPart_mul (hn : [] ∈ l ↔ n = true) :
    properPart (l * m) = properPart l * m + if n then properPart m else 0 := by
  have hproper : properPart (properPart l * m) = properPart l * m := by
    refine properPart_of_nil_notMem fun h => ?_
    obtain ⟨u,hu,v,-,huv⟩ := Language.mem_mul.mp h
    exact hu.2 (List.append_eq_nil_iff.mp huv).1
  conv_lhs => rw [eq_properPart_add hn, add_mul, properPart_add, hproper]
  cases n with
  | true => simp
  | false =>
    have hzero : properPart (0 : Language UInt8) = 0 := by
      ext w
      simp [mem_properPart, Language.notMem_zero]
    simp [hzero]

/-- Rounds without a byte do not count. -/
theorem kstar_properPart (l : Language UInt8) : (properPart l)∗ = l∗ := by
  ext w
  rw [Language.kstar_def_nonempty l, Language.mem_kstar]
  rfl

theorem properPart_kstar (l : Language UInt8) :
    properPart (l∗) = (properPart l)∗ * properPart l := by
  conv_lhs => rw [← kstar_properPart, ← Language.one_add_kstar_mul_self_eq_kstar,
    properPart_one_add]
  refine properPart_of_nil_notMem fun h => ?_
  obtain ⟨u,-,v,hv,huv⟩ := Language.mem_mul.mp h
  exact hv.2 (List.append_eq_nil_iff.mp huv).2

end ProperPart

/-- The bytes on which a vertex is entered. -/
def entering (label : Option Transition) : Language UInt8 :=
  {w | ∃ b, label.any (·.accepts b) = true ∧ w = [b]}

theorem mem_entering_mul {label : Option Transition} {l : Language UInt8} {w : List UInt8} :
    w ∈ entering label * l ↔
      ∃ b rest, label.any (·.accepts b) = true ∧ rest ∈ l ∧ w = b :: rest := by
  rw [Language.mem_mul]
  constructor
  · rintro ⟨u,⟨b,hb,rfl⟩,rest,hrest,rfl⟩
    exact ⟨b,rest,hb,hrest,rfl⟩
  · rintro ⟨b,rest,hb,hrest,rfl⟩
    exact ⟨[b],⟨b,hb,rfl⟩,rest,hrest,rfl⟩

/-- One byte for each condition. -/
def sequenced (ps : List (UInt8 → Bool)) : Language UInt8 :=
  {w | List.Forall₂ (fun p b => p b = true) ps w}

theorem Leaf.language_eq {s : BuilderSettings} {l : Leaf} {ts : List Transition}
    (h : l.transitions s = some ts) : l.language s = sequenced (ts.map Transition.accepts) := by
  have hconditions : l.conditions s = some (ts.map Transition.accepts) := by
    rw [l.conditions_eq s, h, Option.map_some]
  ext w
  constructor
  · rintro ⟨ps,hps,hw⟩
    obtain rfl := Option.some.inj (hconditions.symm.trans hps)
    exact hw
  · exact fun hw => ⟨_,hconditions,hw⟩

theorem foldr_entering (ts : List Transition) (k : Language UInt8) :
    ts.foldr (fun t l => entering (some t) * l) k =
      sequenced (ts.map Transition.accepts) * k := by
  induction ts with
  | nil =>
    ext w
    rw [List.foldr_nil, Language.mem_mul]
    constructor
    · exact fun hw => ⟨[],.nil,w,hw,rfl⟩
    · rintro ⟨u,hu,v,hv,rfl⟩
      cases hu
      exact hv
  | cons t ts ih =>
    ext w
    rw [List.foldr_cons, ih, mem_entering_mul, Language.mem_mul]
    constructor
    · rintro ⟨b,rest,hb,hrest,rfl⟩
      obtain ⟨u,hu,v,hv,rfl⟩ := Language.mem_mul.mp hrest
      exact ⟨b :: u,.cons hb hu,v,hv,rfl⟩
    · rintro ⟨u,hu,v,hv,rfl⟩
      cases hu with
      | cons hb hrest =>
        exact ⟨_,_,hb,Language.append_mem_mul hrest hv,rfl⟩

namespace Term
variable {s : BuilderSettings} {e : Term}

/-- A loop back to the entries, behind which `k` follows. -/
theorem reach_loop {F : Vertex → Language UInt8} {k : Language UInt8} {base : Nat} {yields : Bool}
    (hbody : ∀ {k'}, Slot.Solves F (fun label l => entering label * l) k' base (e.slots s base) →
      reach F (e.front s base).targets = properPart (e.language s) * k')
    (h : Slot.Solves F (fun label l => entering label * l) k base
      ((e.slots s base).map (Slot.lead yields (e.front s base).targets true))) :
    reach F (e.front s base).targets =
      (properPart (e.language s))∗ * (properPart (e.language s) * k) := by
  -- a round is followed by another one or by `k`
  have hfollow : ∀ g : Gap, (g.lead yields (e.front s base).targets true).fill F k =
      g.fill F (reach F (e.front s base).targets + k) := by
    intro g
    cases yields with
    | true => rw [Gap.fill_lead_back, if_pos rfl, add_comm]
    | false => rw [Gap.fill_lead_front, if_pos rfl]
  have hround := hbody (h.of_lead hfollow)
  rw [mul_add] at hround
  exact (Language.self_eq_mul_add_iff (nil_notMem_properPart _)).mp hround

/-- An operand whose exits lead to the entries of the next one, or behind it if it can be
skipped. -/
theorem reach_concatenation {l r : Term} {F : Vertex → Language UInt8} {k : Language UInt8}
    {base : Nat} (hl : l.IsBasic) (hr : r.IsBasic)
    (hbody : ∀ {k'}, Slot.Solves F (fun label l => entering label * l) k' base (l.slots s base) →
      reach F (l.front s base).targets = properPart (l.language s) * k')
    (hnext : reach F (r.front s (base + l.width s)).targets = properPart (r.language s) * k)
    (h : Slot.Solves F (fun label l => entering label * l) k base ((l.slots s base).map
      (Slot.lead (l.yields s r) (r.front s (base + l.width s)).targets
        (r.front s (base + l.width s)).isOpen))) :
    reach F ((concatenation l r).front s base).targets =
      properPart ((concatenation l r).language s) * k := by
  -- what follows the first operand is the second one, with or without a byte
  have hfollow : ∀ g : Gap, (g.lead (l.yields s r) (r.front s (base + l.width s)).targets
      (r.front s (base + l.width s)).isOpen).fill F k = g.fill F (r.language s * k) := by
    intro g
    have hsum : reach F (r.front s (base + l.width s)).targets +
        (if (r.front s (base + l.width s)).isOpen then k else 0) = r.language s * k := by
      conv_rhs => rw [eq_properPart_add (nil_mem_language hr), add_mul, ← hnext]
      rw [isOpen_front]
      cases r.nullable <;> simp
    cases l.yields s r with
    | true => rw [Gap.fill_lead_back, add_comm, hsum]
    | false => rw [Gap.fill_lead_front, hsum]
  have hfirst := hbody (h.of_lead hfollow)
  have hopen := l.isOpen_front (s := s) base
  have hsplit : reach F ((concatenation l r).front s base).targets =
      reach F (l.front s base).targets +
        if l.nullable then reach F (r.front s (base + l.width s)).targets else 0 := by
    rw [front, Gap.targets_sequence, hopen]
    cases l.nullable with
    | true =>
      rw [if_pos rfl, if_pos rfl, Gap.reach_append, Gap.reach_append,
        Gap.reach_targets F (l.front s base), add_right_comm]
    | false => simp
  rw [hsplit, hfirst, hnext, language, properPart_mul (nil_mem_language hl), add_mul, mul_assoc]
  cases l.nullable <;> simp

/-- The entries of a term stand for its strings of at least one byte. -/
theorem reach_front {F : Vertex → Language UInt8} {k : Language UInt8} {base : Nat}
    (hb : e.IsBasic) (he : e.Encodable s)
    (h : Slot.Solves F (fun label l => entering label * l) k base (e.slots s base)) :
    reach F (e.front s base).targets = properPart (e.language s) * k := by
  induction hb generalizing k base with
  | leaf l =>
    obtain ⟨ts,hts⟩ := Option.ne_none_iff_exists'.mp he
    have hne : ts ≠ [] := fun hnil => l.transitions_ne_nil s (hnil ▸ hts)
    have hnil : [] ∉ l.language s := by
      rw [show l.language s = (leaf l).language s from rfl, nil_mem_language (.leaf l)]
      simp [nullable]
    rw [slots, hts, Option.getD_some] at h
    rw [front, Gap.targets_closed, language, properPart_of_nil_notMem hnil, l.language_eq hts,
      ← foldr_entering, ← h.row hne]
    simp [reach]
  | @alternation l r hl hr ihl ihr =>
    have hright := h.right
    rw [length_slots] at hright
    rw [front, Gap.targets_alternate, Gap.reach_append, ihl he.1 h.left, ihr he.2 hright, language,
      properPart_add, add_mul]
  | @concatenation l r hl hr ihl ihr =>
    have hright := h.right
    rw [List.length_map, length_slots] at hright
    exact reach_concatenation hl hr (fun h' => ihl he.1 h') (ihr he.2 hright) h.left
  | @optional greedy e hb ih =>
    rw [front, if_pos rfl, Gap.targets_optional, language_option, properPart_one_add]
    exact ih he h
  | @star greedy e hb ih =>
    rw [slots, if_pos rfl] at h
    rw [front, if_pos rfl, Gap.targets_optional, language_star, properPart_kstar, mul_assoc]
    exact reach_loop (fun h' => ih he h') h
  | @plus greedy e hb ih =>
    rw [slots, if_pos rfl] at h
    have hstar : properPart (e.language s * (e.language s)∗) = properPart ((e.language s)∗) := by
      conv_rhs => rw [← Language.one_add_self_mul_kstar_eq_kstar, properPart_one_add]
    rw [front, if_neg one_ne_zero, language_plus, hstar, properPart_kstar, mul_assoc]
    exact reach_loop (fun h' => ih he h') h

end Term

theorem mem_reach {F : Vertex → Language UInt8} {ws : List Vertex} {w : List UInt8} :
    w ∈ reach F ws ↔ ∃ v ∈ ws, w ∈ F v := by
  induction ws with
  | nil => simp [reach, Language.notMem_zero]
  | cons v ws ih =>
    have hcons : reach F (v :: ws) = F v + reach F ws := List.sum_cons
    rw [hcons, Language.mem_add, ih]
    simp

namespace Graph
variable {g : Graph} {s : BuilderSettings} {e : Term} {label : Nat}

/-- The strings of a vertex, by its successors. -/
theorem languageFrom_eq (g : Graph) (v : Vertex) :
    g.languageFrom v = (if g.isMatch v then 1 else 0) +
      reach (fun w => entering (g.label w) * g.languageFrom w) (g.outs v) := by
  ext text
  rw [Language.mem_add, mem_reach]
  cases text with
  | nil =>
    rw [nil_mem_languageFrom]
    have hbyte : ¬ ∃ w ∈ g.outs v, [] ∈ entering (g.label w) * g.languageFrom w := by
      rintro ⟨w,-,hw⟩
      obtain ⟨b,rest,-,-,h⟩ := mem_entering_mul.mp hw
      cases h
    cases hmatch : g.isMatch v <;> simp [hbyte, Language.notMem_zero]
  | cons b text =>
    have hnil : b :: text ∉ (if g.isMatch v then 1 else 0 : Language UInt8) := by
      split <;> simp [Language.mem_one, Language.notMem_zero]
    rw [cons_mem_languageFrom]
    constructor
    · rintro ⟨w,hw,hb,htext⟩
      exact Or.inr ⟨w,hw,mem_entering_mul.mpr ⟨b,text,hb,htext,rfl⟩⟩
    · rintro (h | ⟨w,hw,h⟩)
      · exact absurd h hnil
      · obtain ⟨b',text',hb,htext,heq⟩ := mem_entering_mul.mp h
        cases heq
        exact ⟨w,hw,hb,htext⟩

/-- The vertices of the automaton solve the equations of its layout. -/
theorem Shows.solves (h : g.Shows (e.automaton s label)) :
    Slot.Solves (fun v => entering (g.label v) * g.languageFrom v)
      (fun label l => entering label * l) 1 1 (e.slots s 1) := by
  intro i slot hslot
  obtain ⟨houts,hmatch,haccepts⟩ := h.automaton_vertex hslot
  have hentering : entering (g.label (1 + i)) = entering slot.label := by
    ext w
    exact exists_congr fun b => and_congr_left fun _ => by rw [← haccepts b, accepts]
  have hlanguage : g.languageFrom (1 + i) =
      slot.gap.fill (fun v => entering (g.label v) * g.languageFrom v) 1 := by
    rw [languageFrom_eq, hmatch, houts, Gap.reach_targets, Gap.fill, add_left_comm, add_assoc]
  simp only [hentering, hlanguage]

/-- The automaton of a term that takes a byte at least accepts the strings of the term. -/
theorem Shows.language (h : g.Shows (e.automaton s label)) (hb : e.IsBasic) (he : e.Encodable s)
    (hn : e.nullable = false) : g.languageFrom 0 = e.language s := by
  obtain ⟨houts,hmatch⟩ := h.automaton_start
  have hnil : [] ∉ e.language s := by simp [Term.nil_mem_language hb, hn]
  rw [languageFrom_eq, hmatch, houts, Term.reach_front hb he h.solves,
    properPart_of_nil_notMem hnil]
  simp

end Graph

theorem Builder.languageFrom_build {b b' : Builder} {t : Tree} (ht : t.WellFormed)
    (h : b.build t = (.ok (),b')) : b'.graph.languageFrom 0 = t.language b.settings := by
  obtain ⟨e,e',hspells,hunroll,he,hn,hshows⟩ := b.build_ok ht h
  rw [hshows.language (Term.isBasic_of_unroll hunroll) he hn,
    Term.language_unroll b.settings hunroll, hspells.language_eq]

/-- What a build yields for a well-formed tree accepts the strings of the tree. -/
theorem Builder.walk_iff_mem_language {b b' : Builder} {t : Tree} (ht : t.WellFormed)
    (h : b.build t = (.ok (),b')) (w : List UInt8) :
    (∃ v, b'.graph.Walk 0 w v ∧ b'.graph.isMatch v = true) ↔ w ∈ t.language b.settings := by
  rw [← Graph.mem_languageFrom, languageFrom_build ht h]

/-- One or two rounds of a letter and then the letter itself, which is one node. -/
def Tree.sharedLetter : Tree where
  nodes := #[{ kind := .literal 107 },.repetition 0 1 (some 2) true,.concatenation 1 0,.regexp 2]
  root := some 3

theorem Tree.wellFormed_sharedLetter : sharedLetter.WellFormed :=
  .of_forall rfl rfl (by decide)

theorem Builder.walk_iff_mem_language_sharedLetter :
    ∃ b', ((Builder.ofSettings { caseSensitive := false }).setLabel 7).build Tree.sharedLetter =
        (.ok (),b') ∧
      ∀ w, (∃ v, b'.graph.Walk 0 w v ∧ b'.graph.isMatch v = true) ↔
        w ∈ Tree.sharedLetter.language { caseSensitive := false } := by
  let b := (Builder.ofSettings { caseSensitive := false }).setLabel 7
  have hok : (b.build Tree.sharedLetter).1 = .ok () := by decide +kernel
  have hbuild : b.build Tree.sharedLetter = (.ok (),(b.build Tree.sharedLetter).2) :=
    Prod.ext hok rfl
  exact ⟨_,hbuild,Builder.walk_iff_mem_language Tree.wellFormed_sharedLetter hbuild⟩

end ByteAutomata

import Mathlib.Data.List.Induction
import ByteAutomata.Proofs.Builder.InPlace

/-! # Builders with a past

A builder may serve for many builds, with its settings changed in between. What it makes of a tree
depends on the settings and the label that are current, never on what it has been used for. It is
good just if the latest build has succeeded and has not been thrown away. -/
namespace ByteAutomata.Builder

inductive Action where
  | setCaseSensitive (yes : Bool)
  | setEncoding (encoding : Encoding)
  | setLabel (label : Nat)
  | setSizeHint (sizeHint : Nat)
  | reset
  | build (t : Tree)

namespace Action

/-- The builder after the action, however a build ends. -/
def apply (b : Builder) : Action → Builder
  | setCaseSensitive yes => b.setCaseSensitive yes
  | setEncoding encoding => b.setEncoding encoding
  | setLabel label => b.setLabel label
  | setSizeHint sizeHint => b.withSizeHint sizeHint
  | reset => b.reset
  | build t => (b.build t).2

def IsSetter : Action → Prop
  | reset | build _ => False
  | _ => True

def caseSensitive? : Action → Option Bool
  | setCaseSensitive yes => some yes
  | _ => none

def encoding? : Action → Option Encoding
  | setEncoding encoding => some encoding
  | _ => none

def label? : Action → Option Nat
  | setLabel label => some label
  | _ => none

/-- The action as it is carried out: whoever expects more vertices than there can be room for gets
no builder at all. -/
def run (b : Builder) : Action → Except Fault Builder
  | setSizeHint sizeHint => b.setSizeHint sizeHint
  | a => .ok (a.apply b)

end Action

def after (init : BuilderSettings) (actions : List Action) : Builder :=
  actions.foldl Action.apply (ofSettings init)

def history (init : BuilderSettings) (actions : List Action) : Except Fault Builder := do
  actions.foldlM Action.run (← create init)

/-- The value that has been set last, if any. -/
def latest {α : Type} (value? : Action → Option α) (init : α) (actions : List Action) : α :=
  (actions.filterMap value?).getLastD init

/-- A new builder that is given the current settings and the current label. -/
def fresh (init : BuilderSettings) (actions : List Action) : Builder :=
  let yes := latest Action.caseSensitive? init.caseSensitive actions
  let encoding := latest Action.encoding? init.encoding actions
  ((Builder.setCaseSensitive {} yes).setEncoding encoding).setLabel (latest Action.label? 0 actions)

/-- A build has succeeded, and only settings have been changed since then. -/
def EndsWell (init : BuilderSettings) (actions : List Action) : Prop :=
  ∃ earlier t later, actions = earlier ++ .build t :: later ∧ (∀ a ∈ later, a.IsSetter) ∧
    ((after init earlier).build t).1 = .ok ()

/-- Nothing is left but the start vertex, which is bare, and its fragment; the settings are kept. -/
structure Cleared (b b' : Builder) : Prop where
  graph : b'.graph = { vertices := #[{ transition := none, incoming := .zero, outgoing := .zero }] }
  isGood : b'.isGood = false
  stack : b'.assembly.stack.length = 1
  settings : b'.settings = b.settings
  label : b'.label = b.label

variable {b b' : Builder} {a : Action} {t : Tree}

section Actions

theorem settings_apply (b : Builder) (a : Action) :
    (a.apply b).settings.caseSensitive = a.caseSensitive?.getD b.settings.caseSensitive ∧
      (a.apply b).settings.encoding = a.encoding?.getD b.settings.encoding ∧
      (a.apply b).label = a.label?.getD b.label := by
  cases a with
  | build t =>
    have hs : (b.build t).2.settings = b.settings := b.settings_build t
    have hl : (b.build t).2.label = b.label := b.label_build t
    exact ⟨congrArg BuilderSettings.caseSensitive hs,congrArg BuilderSettings.encoding hs,hl⟩
  | _ => exact ⟨rfl,rfl,rfl⟩

theorem assembly_apply (h : a.IsSetter) (b : Builder) : (a.apply b).assembly = b.assembly := by
  cases a with
  | reset => exact h.elim
  | build t => exact h.elim
  | _ => rfl

theorem isGood_of_ofTree {s : BuilderSettings} {label : Nat} {a : Assembly}
    (h : Assembly.ofTree s label t = .ok a) : a.isGood = true := by
  obtain ⟨a',-,hgood⟩ := bind_eq_ok.mp h
  split at hgood
  · rename_i hisGood
    obtain rfl := Except.ok.inj hgood
    exact hisGood
  · cases hgood

theorem isGood_build (b : Builder) (t : Tree) :
    (b.build t).2.isGood = true ↔ (b.build t).1 = .ok () := by
  obtain ⟨hresult,hassembly,-,-⟩ := b.build_eq t
  rw [isGood, hassembly, hresult]
  cases hx : assemble b.settings b.label t with
  | error e => exact iff_of_false Bool.false_ne_true (by simp [Except.map])
  | ok a =>
    obtain ⟨u,-,hu⟩ := bind_eq_ok.mp hx
    exact iff_of_true (isGood_of_ofTree hu) rfl

/-- An action leaves a good builder just if it is a build that succeeds, or keeps it so. -/
theorem isGood_apply (b : Builder) (a : Action) :
    (a.apply b).isGood = true ↔
      a.IsSetter ∧ b.isGood = true ∨ ∃ t, a = .build t ∧ (b.build t).1 = .ok () := by
  cases a with
  | reset => exact iff_of_false Bool.false_ne_true (by simp [Action.IsSetter])
  | build t => simpa [Action.IsSetter, Action.apply] using b.isGood_build t
  | _ => exact ⟨fun h => Or.inl ⟨trivial,h⟩,fun h => h.elim And.right fun ⟨_,h,_⟩ => nomatch h⟩

theorem cleared_reset (b : Builder) : b.Cleared b.reset := ⟨rfl,rfl,rfl,rfl,rfl⟩

theorem cleared_build {e : BuildFailure} (h : (b.build t).1 = .error e) :
    b.Cleared (b.build t).2 := by
  obtain ⟨hresult,hassembly,hs,hl⟩ := b.build_eq t
  have hstart : (b.build t).2.assembly = .start := by
    rw [h] at hresult
    rw [hassembly]
    cases hx : assemble b.settings b.label t with
    | error e => rfl
    | ok a =>
      rw [hx] at hresult
      cases hresult
  exact ⟨congrArg Assembly.graph hstart,congrArg Assembly.isGood hstart,
    congrArg (fun a => a.stack.length) hstart,hs,hl⟩

/-- The number of vertices that are expected is not read. -/
theorem assemble_sizeHint (caseSensitive : Bool) (encoding : Encoding) (hint hint' label : Nat)
    (t : Tree) :
    assemble ⟨caseSensitive,encoding,hint⟩ label t =
      assemble ⟨caseSensitive,encoding,hint'⟩ label t := rfl

theorem build_congr (hcase : b.settings.caseSensitive = b'.settings.caseSensitive)
    (hencoding : b.settings.encoding = b'.settings.encoding) (hlabel : b.label = b'.label)
    (t : Tree) :
    (b.build t).1 = (b'.build t).1 ∧ (b.build t).2.assembly = (b'.build t).2.assembly := by
  have hsame : assemble b.settings b.label t = assemble b'.settings b'.label t := by
    obtain ⟨⟨yes,encoding,hint⟩,label,buffer,assembly⟩ := b
    obtain ⟨⟨yes',encoding',hint'⟩,label',buffer',assembly'⟩ := b'
    obtain rfl : yes = yes' := hcase
    obtain rfl : encoding = encoding' := hencoding
    obtain rfl : label = label' := hlabel
    exact assemble_sizeHint yes encoding hint hint' label t
  obtain ⟨hresult,hassembly,-,-⟩ := b.build_eq t
  obtain ⟨hresult',hassembly',-,-⟩ := b'.build_eq t
  rw [hresult, hassembly, hresult', hassembly', hsame]
  exact ⟨rfl,rfl⟩

end Actions

section Histories

theorem after_append (init : BuilderSettings) (actions : List Action) (a : Action) :
    after init (actions ++ [a]) = a.apply (after init actions) :=
  List.foldl_append

theorem history_append (init : BuilderSettings) (actions : List Action) (a : Action) :
    history init (actions ++ [a]) = history init actions >>= fun b => a.run b := by
  unfold history
  cases create init with
  | error fault => rfl
  | ok b =>
    rw [ok_bind, ok_bind, List.foldlM_append]
    exact bind_congr fun _ => bind_pure _

theorem apply_of_run (h : a.run b = .ok b') : a.apply b = b' := by
  cases a with
  | setSizeHint n => exact (setSizeHint_eq_ok.mp h).2
  | _ => exact Except.ok.inj h

/-- Room for the vertices that are expected, beside those of the graph, is room for them alone. -/
theorem reserve_empty_of_reserve {g : Graph} {n : Nat} (h : g.reserve n = .ok ()) :
    Graph.empty.reserve n = .ok () := by
  rw [Graph.reserve_eq_ok] at h ⊢
  exact Nat.le_trans (Nat.mul_le_mul_right _ (Nat.add_le_add_right (Nat.zero_le g.size) n)) h

theorem reserve_of_run (h : a.run b = .ok b')
    (hb : Graph.empty.reserve b.settings.sizeHint = .ok ()) :
    Graph.empty.reserve b'.settings.sizeHint = .ok () := by
  cases a with
  | setSizeHint n =>
    obtain ⟨hroom,rfl⟩ := setSizeHint_eq_ok.mp h
    exact reserve_empty_of_reserve hroom
  | build t =>
    cases h
    change Graph.empty.reserve (b.build t).2.settings.sizeHint = .ok ()
    rwa [b.settings_build t]
  | _ =>
    cases h
    exact hb

/-- A history that asks for no more room than there can be ends as if room were not looked at. Its
graph, once it is cleared, has room for the vertices that are expected. -/
theorem after_of_history {init : BuilderSettings} {actions : List Action}
    (h : history init actions = .ok b) :
    after init actions = b ∧ Graph.empty.reserve b.settings.sizeHint = .ok () := by
  induction actions using List.reverseRecOn generalizing b with
  | nil =>
    obtain ⟨b₀,hcreate,hb⟩ := bind_eq_ok.mp h
    cases hb
    obtain ⟨hroom,rfl⟩ := setSizeHint_eq_ok.mp hcreate
    exact ⟨rfl,reserve_empty_of_reserve hroom⟩
  | append_singleton actions a ih =>
    rw [history_append] at h
    obtain ⟨b₀,hb₀,hrun⟩ := bind_eq_ok.mp h
    obtain ⟨hafter,hroom⟩ := ih hb₀
    rw [after_append, hafter]
    exact ⟨apply_of_run hrun,reserve_of_run hrun hroom⟩

theorem latest_append {α : Type} (value? : Action → Option α) (x : α) (actions : List Action)
    (a : Action) :
    latest value? x (actions ++ [a]) = (value? a).getD (latest value? x actions) := by
  unfold latest
  rw [List.filterMap_append]
  cases h : value? a with
  | none => rw [List.filterMap_cons_none h, List.filterMap_nil, List.append_nil, Option.getD_none]
  | some y => rw [List.filterMap_cons_some h, List.filterMap_nil, List.getLastD_concat,
      Option.getD_some]

theorem settings_after (init : BuilderSettings) (actions : List Action) :
    (after init actions).settings.caseSensitive =
        latest Action.caseSensitive? init.caseSensitive actions ∧
      (after init actions).settings.encoding = latest Action.encoding? init.encoding actions ∧
      (after init actions).label = latest Action.label? 0 actions := by
  induction actions using List.reverseRecOn with
  | nil => exact ⟨rfl,rfl,rfl⟩
  | append_singleton actions a ih =>
    obtain ⟨hcase,hencoding,hlabel⟩ := ih
    obtain ⟨hcase',hencoding',hlabel'⟩ := settings_apply (after init actions) a
    rw [after_append, latest_append, latest_append, latest_append]
    exact ⟨hcase ▸ hcase',hencoding ▸ hencoding',hlabel ▸ hlabel'⟩

theorem endsWell_nil (init : BuilderSettings) : ¬ EndsWell init [] := by
  rintro ⟨earlier,t,later,h,-⟩
  simp at h

theorem endsWell_append (init : BuilderSettings) (actions : List Action) (a : Action) :
    EndsWell init (actions ++ [a]) ↔
      a.IsSetter ∧ EndsWell init actions ∨
        ∃ t, a = .build t ∧ ((after init actions).build t).1 = .ok () := by
  constructor
  · rintro ⟨earlier,t,later,h,hlater,hbuild⟩
    -- the last action is the build itself, or one of the setters behind it
    rcases List.eq_nil_or_concat later with rfl | ⟨later,a',rfl⟩
    · obtain ⟨rfl,ha⟩ := List.append_inj' h rfl
      exact Or.inr ⟨t,List.singleton_inj.mp ha,hbuild⟩
    · have hassoc : actions ++ [a] = (earlier ++ .build t :: later) ++ [a'] := by simpa using h
      obtain ⟨rfl,ha⟩ := List.append_inj' hassoc rfl
      obtain rfl := List.singleton_inj.mp ha
      have hrest : ∀ x ∈ later, x.IsSetter := fun x hx => hlater x (by simp [hx])
      exact Or.inl ⟨hlater a (by simp),earlier,t,later,rfl,hrest,hbuild⟩
  · rintro (⟨hsetter,earlier,t,later,rfl,hlater,hbuild⟩ | ⟨t,rfl,hbuild⟩)
    · refine ⟨earlier,t,later ++ [a],by simp,fun x hx => ?_,hbuild⟩
      rcases List.mem_append.mp hx with hx | hx
      · exact hlater x hx
      · obtain rfl := List.mem_singleton.mp hx
        exact hsetter
    · exact ⟨actions,t,[],rfl,by simp,hbuild⟩

theorem isGood_after (init : BuilderSettings) (actions : List Action) :
    (after init actions).isGood = true ↔ EndsWell init actions := by
  induction actions using List.reverseRecOn with
  | nil => exact iff_of_false Bool.false_ne_true (endsWell_nil init)
  | append_singleton actions a ih => rw [after_append, isGood_apply, endsWell_append, ih]

/-- Builds do not depend on the past, a failed one leaves nothing behind, and settings may be
changed at any time. -/
theorem build_after (init : BuilderSettings) (actions : List Action) (t : Tree) :
    ((after init actions).build t).1 = ((fresh init actions).build t).1 ∧
      ((after init actions).build t).2.graph = ((fresh init actions).build t).2.graph ∧
      (∀ e, ((after init actions).build t).1 = .error e →
        (after init actions).Cleared ((after init actions).build t).2) ∧
      (after init actions).Cleared (after init actions).reset ∧
      ((after init actions).isGood = true ↔ EndsWell init actions) ∧
      ∀ a : Action, a.IsSetter →
        (a.apply (after init actions)).isGood = (after init actions).isGood ∧
          (a.apply (after init actions)).graph = (after init actions).graph := by
  obtain ⟨hcase,hencoding,hlabel⟩ := settings_after init actions
  obtain ⟨hresult,hassembly⟩ :
      ((after init actions).build t).1 = ((fresh init actions).build t).1 ∧
        ((after init actions).build t).2.assembly = ((fresh init actions).build t).2.assembly :=
    build_congr hcase hencoding hlabel t
  refine ⟨hresult,congrArg Assembly.graph hassembly,fun e he => cleared_build he,cleared_reset _,
    isGood_after init actions,fun a ha => ?_⟩
  have hsame := assembly_apply ha (after init actions)
  exact ⟨congrArg Assembly.isGood hsame,congrArg Assembly.graph hsame⟩

end Histories

end ByteAutomata.Builder

import ByteAutomata.Builder.Basic
import ByteAutomata.Proofs.Outcome

/-! # Builds in place

A build goes on with what its builder holds. The bytes that are read from the buffer have just been
written, and the assembly has just been reset, so what comes out is decided by the settings and the
label alone: it is what a run on an assembly of its own yields. -/
namespace ByteAutomata

namespace Builder
variable {b b' : Builder} {x y : Except BuildFailure Assembly} {t : Tree}

/-- A step of a builder ends as the run `x` of an assembly does, and keeps the settings and the
label. -/
structure Follows (b : Builder) (x : Except BuildFailure Assembly)
    (r : Except BuildFailure Unit × Builder) : Prop where
  result : r.1 = x.map fun _ => ()
  assembly : ∀ a, x = .ok a → r.2.assembly = a
  settings : r.2.settings = b.settings
  label : r.2.label = b.label

theorem Follows.error {e : BuildFailure} (hs : b'.settings = b.settings) (hl : b'.label = b.label) :
    b.Follows (.error e) (.error e,b') :=
  ⟨rfl,fun _ h => (nomatch h),hs,hl⟩

theorem Follows.ok {a : Assembly} (hs : b'.settings = b.settings) (hl : b'.label = b.label) :
    b.Follows (.ok a) (.ok (),{ b' with assembly := a }) :=
  ⟨rfl,fun _ h => Except.ok.inj h,hs,hl⟩

theorem follows_settle (hs : b'.settings = b.settings) (hl : b'.label = b.label)
    (x : Except BuildFailure Assembly) : b.Follows x (b'.settle x) := by
  cases x with
  | error e => exact .error hs hl
  | ok a => exact .ok hs hl

theorem follows_visit (b : Builder) (t : Tree) (id : NodeId) :
    b.Follows (b.assembly.visit b.settings b.label t id) (b.visit t id) := by
  unfold visit Assembly.visit
  cases t.node id with
  | error fault => exact .error rfl rfl
  | ok node =>
    obtain ⟨kind,left,right⟩ := node
    cases kind with
    | literal codePoint =>
      have hbytes : (b.spelling codePoint).1 = (b.settings.encoding.encode codePoint).getD [] :=
        Encoding.take_write b.settings.encoding codePoint b.buffer
      change b.Follows (b.assembly.literal b.settings id codePoint)
        ((b.spelling codePoint).2.settle
          (b.assembly.spell b.settings id codePoint (b.spelling codePoint).1))
      rw [hbytes]
      refine follows_settle ?_ ?_ (b.assembly.literal b.settings id codePoint)
      · rfl
      · rfl
    | _ => exact follows_settle rfl rfl _

/-- The nodes are taken one after the other in both runs. -/
theorem follows_visitAll (b : Builder) (t : Tree) (ids : List NodeId) :
    b.Follows (ids.foldlM (Assembly.visit b.settings b.label t) b.assembly)
      (b.visitAll t ids) := by
  induction ids generalizing b with
  | nil => exact .ok rfl rfl
  | cons id ids ih =>
    obtain ⟨hresult,hassembly,hs,hl⟩ := b.follows_visit t id
    rw [visitAll, List.foldlM_cons]
    generalize b.visit t id = r at hresult hassembly hs hl
    obtain ⟨result,b'⟩ := r
    dsimp only at hresult hassembly hs hl
    cases hx : b.assembly.visit b.settings b.label t id with
    | error e =>
      obtain rfl : result = .error e := by rw [hresult, hx]; rfl
      exact .error hs hl
    | ok a =>
      obtain rfl : result = .ok () := by rw [hresult, hx]; rfl
      obtain rfl := hassembly a hx
      have hrest := ih b'
      rw [hs, hl] at hrest
      exact ⟨hrest.result,hrest.assembly,hrest.settings.trans hs,hrest.label.trans hl⟩

theorem follows_traverse (hb : b.assembly = .start) (t : Tree) :
    b.Follows (Assembly.ofTree b.settings b.label t) (b.traverse t) := by
  have hall := b.follows_visitAll t (t.traversal.events.filterMap Event.left?)
  rw [hb] at hall
  unfold Assembly.ofTree Tree.foldLeft traverse
  generalize t.traversal = traversal at hall ⊢
  obtain ⟨events,fault⟩ := traversal
  dsimp only at hall ⊢
  generalize List.foldlM (Assembly.visit b.settings b.label t) _ _ = x at hall ⊢
  generalize b.visitAll t _ = r at hall ⊢
  obtain ⟨result,b'⟩ := r
  obtain ⟨hresult,hassembly,hs,hl⟩ := hall
  dsimp only at hresult hassembly hs hl
  cases x with
  | error e =>
    obtain rfl : result = .error e := hresult
    exact .error hs hl
  | ok a =>
    obtain rfl : result = .ok () := hresult
    obtain rfl := hassembly a rfl
    cases fault with
    | some fault => exact .error hs hl
    | none =>
      change b.Follows (if b'.isGood then .ok b'.assembly else .error _)
        (if b'.isGood then _ else _)
      split
      · exact .ok hs hl
      · exact .error hs hl

theorem follows_attempt (hb : b.assembly = .start) (t : Tree) :
    b.Follows (assemble b.settings b.label t) (b.attempt t) := by
  unfold assemble attempt
  cases t.unroll with
  | error e => exact .error rfl rfl
  | ok u => exact follows_traverse hb u

/-- What a build leaves, whatever the builder has been used for before. -/
theorem build_eq (b : Builder) (t : Tree) :
    (b.build t).1 = (assemble b.settings b.label t).map (fun _ => ()) ∧
      (b.build t).2.assembly = (assemble b.settings b.label t).toOption.getD .start ∧
      (b.build t).2.settings = b.settings ∧ (b.build t).2.label = b.label := by
  have hfollows : b.reset.Follows (assemble b.settings b.label t) (b.reset.attempt t) :=
    follows_attempt rfl t
  unfold build
  generalize b.reset.attempt t = r at hfollows ⊢
  generalize assemble b.settings b.label t = x at hfollows ⊢
  obtain ⟨result,b'⟩ := r
  obtain ⟨hresult,hassembly,hs,hl⟩ := hfollows
  dsimp only at hresult hassembly hs hl
  cases x with
  | error e =>
    obtain rfl : result = .error e := hresult
    exact ⟨rfl,rfl,hs,hl⟩
  | ok a =>
    obtain rfl : result = .ok () := hresult
    exact ⟨rfl,hassembly a rfl,hs,hl⟩

theorem settings_build (b : Builder) (t : Tree) : (b.build t).2.settings = b.settings :=
  (b.build_eq t).2.2.1

theorem label_build (b : Builder) (t : Tree) : (b.build t).2.label = b.label :=
  (b.build_eq t).2.2.2

/-- A build that succeeds leaves its assembly in the builder. -/
theorem assemble_of_build (h : b.build t = (.ok (),b')) :
    assemble b.settings b.label t = .ok b'.assembly := by
  obtain ⟨hresult,hassembly,-,-⟩ := b.build_eq t
  rw [h] at hresult hassembly
  cases hx : assemble b.settings b.label t with
  | error e =>
    rw [hx] at hresult
    cases hresult
  | ok a =>
    rw [hx] at hassembly
    exact congrArg Except.ok hassembly.symm

end Builder

section Room

/-- Whether the start vertex and the vertices that are expected can have room together. -/
def BuilderSettings.HasRoom (s : BuilderSettings) : Prop :=
  (1 + s.sizeHint) * Graph.vertexBytes ≤ Graph.byteLimit

instance (s : BuilderSettings) : Decidable s.HasRoom := Nat.decLe _ _

variable {s : BuilderSettings} {b b' : Builder} {n : Nat}

theorem Graph.reserve_eq_ok {g : Graph} :
    g.reserve n = .ok () ↔ (g.size + n) * vertexBytes ≤ byteLimit := by
  simp [reserve]

theorem Builder.setSizeHint_eq_ok :
    b.setSizeHint n = .ok b' ↔ b.graph.reserve n = .ok () ∧ b.withSizeHint n = b' := by
  rw [setSizeHint, bind_eq_ok]
  exact ⟨fun ⟨_,hroom,h⟩ => ⟨hroom,Except.ok.inj h⟩,fun ⟨hroom,h⟩ => ⟨(),hroom,congrArg _ h⟩⟩

theorem Builder.create_of_hasRoom (h : s.HasRoom) : create s = .ok (ofSettings s) :=
  setSizeHint_eq_ok.mpr ⟨Graph.reserve_eq_ok.mpr h,rfl⟩

theorem Builder.create_of_not_hasRoom (h : ¬ s.HasRoom) :
    create s = .error (.capacityOverflow (1 + s.sizeHint)) := by
  have hfault : Assembly.start.graph.reserve s.sizeHint =
      .error (.capacityOverflow (1 + s.sizeHint)) := if_neg h
  exact congrArg (· >>= fun _ => .ok (ofSettings s)) hfault

end Room

end ByteAutomata

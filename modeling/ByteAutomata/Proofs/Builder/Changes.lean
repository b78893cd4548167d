import ByteAutomata.Proofs.Builder.InPlace
import ByteAutomata.Proofs.Builder.Run
import ByteAutomata.Proofs.Graph.Refinement

/-! # Constructions as changes of a graph

A construction has no other access to its graph than the changes that anyone can make. So whatever
the tree is, predecessors stay in step with successors, and no list of the pool is wasted or
shared. -/
namespace ByteAutomata

theorem EndsBy.of_forall {ε α : Type} {P : α → Prop} {x : Except ε α}
    (h : ∀ a, x = .ok a → P a) : EndsBy (fun _ => True) P x := by
  cases x with
  | error e => exact .error trivial
  | ok a => exact .ok (h a rfl)

theorem EndsBy.mapError {ε ε' α : Type} {P : α → Prop} {x : Except ε α} {f : ε → ε'}
    (h : EndsBy (fun _ => True) P x) : EndsBy (fun _ => True) P (x.mapError f) := by
  cases h with
  | error => exact .error trivial
  | ok h => exact .ok h

namespace Graph
variable {g g' : Graph}

theorem after_append (changes : List Change) (c : Change) :
    after (changes ++ [c]) = after changes >>= fun g => g.apply c := by
  rw [after, after, List.foldlM_append]
  exact bind_congr fun _ => bind_pure _

/-- Made out of nothing by changes. -/
def Made (g : Graph) : Prop := ∃ changes, after changes = .ok g

theorem Made.apply (h : g.Made) {c : Change} (hc : g.apply c = .ok g') : g'.Made := by
  obtain ⟨changes,hchanges⟩ := h
  exact ⟨changes ++ [c],by rw [after_append, hchanges, ok_bind, hc]⟩

/-- Every list of the pool has one owner, and each edge is known at both of its ends. -/
theorem Made.tight (h : g.Made) : g.Tight ∧ ∀ v w, (g.outs v).count w = (g.ins w).count v := by
  obtain ⟨changes,hchanges⟩ := h
  have hmirrors := mirrors_after changes
  have hafter : Multigraph.after changes = .ok g.view := by
    rw [← hmirrors.map_eq, hchanges]
    rfl
  exact ⟨(hchanges ▸ hmirrors).tight,Multigraph.balanced_after hafter⟩

/-- A vertex with a condition is made by two changes. -/
theorem setTransition_addVertex (g : Graph) (t : Transition) :
    g.addVertex.setTransition g.size t = .ok (g.addLabeled t) := by
  have hlt : g.size < g.addVertex.size := by simp [addVertex, size]
  have hvertices : (g.vertices.push {}).modify g.vertices.size
      (fun d => { d with transition := some t }) = g.vertices.push { transition := some t } := by
    refine Array.ext_getElem? fun i => ?_
    rw [Array.getElem?_modify, Array.getElem?_push, Array.getElem?_push]
    by_cases hi : g.vertices.size = i
    · subst hi
      simp
    · rw [if_neg hi, if_neg (Ne.symm hi), if_neg (Ne.symm hi)]
  rw [setTransition, modifyTransition, vertex_eq_ok hlt, ok_bind]
  exact congrArg (fun vertices => Except.ok { g with vertices }) hvertices

theorem Made.addLabeled (h : g.Made) (t : Transition) : (g.addLabeled t).Made := by
  have hvertex : g.addVertex.Made := h.apply (c := .addVertex) rfl
  exact hvertex.apply (c := .setTransition g.size t) (g.setTransition_addVertex t)

theorem Made.addEdgesAt (h : g.Made) (source pos : Nat) (ws : List Vertex) :
    EndsBy (fun _ => True) Made (g.addEdgesAt source pos ws) := by
  induction ws generalizing g pos with
  | nil => exact .ok h
  | cons w ws ih =>
    have hedge : EndsBy (fun _ => True) Made (g.addEdgeAt source w pos) :=
      .of_forall fun g' hg' => h.apply (c := .addEdgeAt source w pos) hg'
    exact hedge.bind fun g' hg' => ih hg' (pos + 1)

theorem Made.link (h : g.Made) (exits : List (Vertex × Nat)) (ws : List Vertex) :
    EndsBy (fun _ => True) Made (g.link exits ws) :=
  .foldlM h fun _ hg' p _ => hg'.addEdgesAt p.1 p.2 ws

end Graph

namespace Assembly
variable {s : BuilderSettings} {a : Assembly} {label : Nat} {id : NodeId} {t : Tree}

theorem made_appendByte {g : Graph} (h : g.Made) (b : UInt8) :
    EndsBy (fun _ => True) Graph.Made (appendByte s g b) :=
  .of_forall fun _ hg' => (h.addLabeled _).apply (c := .addEdge (g.size - 1) g.size) hg'

theorem made_spell (h : a.graph.Made) (codePoint : Nat) (bytes : List UInt8) :
    EndsBy (fun _ => True) (·.graph.Made) (a.spell s id codePoint bytes) := by
  cases bytes with
  | nil => exact .error trivial
  | cons b rest =>
    have hrun : EndsBy (fun _ => True) Graph.Made
        (rest.foldlM (appendByte s) (a.graph.addLabeled (byteTransition s b))) :=
      .foldlM (h.addLabeled _) fun g hg b' _ => made_appendByte hg b'
    exact hrun.mapError.bind fun g hg => .ok hg

theorem made_onTop (h : a.graph.Made)
    {f : Graph → Fragment → Except BuildFailure (Graph × Fragment)}
    (hf : ∀ g, g.Made → ∀ top, EndsBy (fun _ => True) (·.1.Made) (f g top)) :
    EndsBy (fun _ => True) (·.graph.Made) (a.onTop f) := by
  match a with
  | ⟨g,[],good⟩ => exact .error trivial
  | ⟨g,top :: rest,good⟩ => exact (hf g h top).bind fun p hp => .ok hp

theorem made_onTopTwo (h : a.graph.Made)
    {f : Graph → Fragment → Fragment → Except BuildFailure (Graph × Fragment)}
    (hf : ∀ g, g.Made → ∀ first second, EndsBy (fun _ => True) (·.1.Made) (f g first second)) :
    EndsBy (fun _ => True) (·.graph.Made) (a.onTopTwo f) := by
  match a with
  | ⟨g,[],good⟩ => exact .error trivial
  | ⟨g,[_],good⟩ => exact .error trivial
  | ⟨g,second :: first :: rest,good⟩ => exact (hf g h first second).bind fun p hp => .ok hp

theorem made_concatenate (h : a.graph.Made) (id : NodeId) :
    EndsBy (fun _ => True) (·.graph.Made) (a.concatenate id) := by
  refine made_onTopTwo h fun g hg first second => EndsBy.mapError ?_
  refine (hg.link first.exits second.entries).bind fun g' hg' => ?_
  refine EndsBy.bind (P := fun _ => True) (.of_forall fun _ _ => trivial) fun f _ => ?_
  exact .ok hg'

theorem made_repeatTop (h : a.graph.Made) (id : NodeId) (greedy : Bool) :
    EndsBy (fun _ => True) (·.graph.Made) (a.repeatTop id greedy) := by
  refine made_onTop h fun g hg top => EndsBy.mapError ?_
  exact (hg.link top.exits top.entries).bind fun g' hg' => .ok hg'

theorem made_skipTop (h : a.graph.Made) (id : NodeId) (greedy : Bool) :
    EndsBy (fun _ => True) (·.graph.Made) (a.skipTop id greedy) :=
  made_onTop h fun _ hg _ => .ok hg

theorem made_repetition (h : a.graph.Made) (min : Nat) (max : Option Nat) (greedy : Bool) :
    EndsBy (fun _ => True) (·.graph.Made) (a.repetition id min max greedy) := by
  unfold repetition
  split
  · exact made_skipTop h id greedy
  · exact (made_repeatTop h id greedy).bind fun a' ha' => made_skipTop ha' id greedy
  · exact made_repeatTop h id greedy
  · exact .error trivial

theorem made_accept {g : Graph} (h : g.Made) (v : Vertex) :
    EndsBy (fun _ => True) Graph.Made (accept label g v) := by
  unfold accept
  split
  · exact .error trivial
  · refine EndsBy.bind (P := fun _ => True) (.of_forall fun _ _ => trivial) fun t? _ => ?_
    cases t? with
    | none => exact .error trivial
    | some t =>
      refine EndsBy.mapError (.of_forall fun g' hg' => ?_)
      exact h.apply (c := .editTransition v fun t => { t with label, isMatch := true }) hg'

theorem made_finish (h : a.graph.Made) (label : Nat) (id : NodeId) :
    EndsBy (fun _ => True) (·.graph.Made) (a.finish label id) := by
  unfold finish
  split
  · exact .error trivial
  · refine (made_concatenate h id).bind fun a' ha' => ?_
    match a' with
    | ⟨g,[],good⟩ => exact .error trivial
    | ⟨g,top :: rest,good⟩ =>
      have hmarks : EndsBy (fun _ => True) Graph.Made
          ((top.exits.map Prod.fst).foldlM (accept label) g) :=
        .foldlM ha' fun g' hg' v _ => made_accept hg' v
      exact hmarks.bind fun g' hg' => .ok hg'

/-- One step, whatever the node and the stack are. -/
theorem made_visit (h : a.graph.Made) (s : BuilderSettings) (label : Nat) (t : Tree)
    (id : NodeId) : EndsBy (fun _ => True) (·.graph.Made) (a.visit s label t id) := by
  cases hnode : t.get? id with
  | none =>
    rw [visit, Tree.node, hnode]
    exact .error trivial
  | some node =>
    rw [visit_eq hnode]
    obtain ⟨kind,left,right⟩ := node
    cases kind with
    | regexp => exact made_finish h label id
    | alternation => exact made_onTopTwo h fun g hg first second => .ok hg
    | concatenation => exact made_concatenate h id
    | repetition min max greedy => exact made_repetition h min max greedy
    | literal codePoint => exact made_spell h codePoint _
    | dot => exact .ok (h.addLabeled .any)
    | charClass set => exact .ok (h.addLabeled _)

theorem made_start : start.graph.Made := ⟨[.addVertex],rfl⟩

theorem made_ofTree (s : BuilderSettings) (label : Nat) (t : Tree) :
    EndsBy (fun _ => True) (·.graph.Made) (ofTree s label t) := by
  have hsteps : EndsBy (fun _ => True) (·.graph.Made)
      ((t.traversal.events.filterMap Event.left?).foldlM (visit s label t) start) :=
    .foldlM made_start fun a ha id _ => made_visit ha s label t id
  have hrun : EndsBy (fun _ => True) (·.graph.Made)
      (t.foldLeft .fault (visit s label t) start) := by
    unfold Tree.foldLeft
    generalize t.traversal = traversal at hsteps ⊢
    obtain ⟨events,fault⟩ := traversal
    refine hsteps.bind fun a ha => ?_
    cases fault with
    | none => exact .ok ha
    | some fault => exact .error trivial
  refine hrun.bind fun a ha => ?_
  split
  · exact .ok ha
  · exact .error trivial

end Assembly

/-- What a build leaves, whether or not it succeeds, is a graph made by changes. -/
theorem Builder.made_build (b : Builder) (t : Tree) : (b.build t).2.graph.Made := by
  have hassemble : EndsBy (fun _ => True) (·.graph.Made) (assemble b.settings b.label t) :=
    EndsBy.bind (P := fun _ => True) (.of_forall fun _ _ => trivial) fun u _ =>
      Assembly.made_ofTree b.settings b.label u
  have hresult := (b.build_eq t).2.1
  rw [graph, hresult]
  generalize assemble b.settings b.label t = x at hassemble
  cases hassemble with
  | error => exact Assembly.made_start
  | ok h => exact h

end ByteAutomata

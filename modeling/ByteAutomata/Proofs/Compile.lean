import ByteAutomata.Proofs.Builder.Errors
import ByteAutomata.Proofs.Builder.Recognition
import ByteAutomata.Proofs.Expr.OfAst
import ByteAutomata.Proofs.Tree.OfExpr

/-! # Outcomes of compilation

What comes out of each stage is fit for the next one: the trees of patterns have operands where
they belong, bounds that allow a round, and literals that are characters. So a pattern is refused
for what is wrong with it only, unless more vertices are expected than there can be room for. -/
namespace ByteAutomata

/-- Whether the encoding has every character. -/
def Encoding.isUnicode : Encoding → Bool
  | utf8 | utf16le | utf16be => true
  | ascii | latin1 => false

namespace Term
variable {e : Term} {s : BuilderSettings}

/-- Every repetition may make a round, and every literal is a character. -/
def Sound : Term → Prop
  | leaf (.literal n) => Utf8.IsScalar n
  | leaf .dot | leaf (.charClass _) => True
  | alternation l r => l.Sound ∧ r.Sound
  | concatenation l r => l.Sound ∧ r.Sound
  | repetition min max _ e => (∀ m, max = some m → min ≤ m ∧ m ≠ 0) ∧ e.Sound

theorem Sound.exists_unroll (h : e.Sound) : ∃ e', e.unroll = some e' := by
  induction e with
  | leaf l => exact ⟨_,rfl⟩
  | alternation l r ihl ihr =>
    obtain ⟨l',hl⟩ := ihl h.1
    obtain ⟨r',hr⟩ := ihr h.2
    exact ⟨_,unroll_alternation.mpr ⟨l',r',hl,hr,rfl⟩⟩
  | concatenation l r ihl ihr =>
    obtain ⟨l',hl⟩ := ihl h.1
    obtain ⟨r',hr⟩ := ihr h.2
    exact ⟨_,unroll_concatenation.mpr ⟨l',r',hl,hr,rfl⟩⟩
  | repetition min max greedy e ih =>
    obtain ⟨e₀,he⟩ := ih h.2
    cases hu : e₀.unrollRepetition min max greedy with
    | some e' => exact ⟨e',unroll_repetition.mpr ⟨e₀,he,hu⟩⟩
    | none =>
      obtain ⟨m,hm,hbad⟩ := unrollRepetition_eq_none.mp hu
      obtain ⟨hle,hne⟩ := h.1 m hm
      omega

theorem Sound.encodable (h : e.Sound) (hs : s.encoding.isUnicode = true) : e.Encodable s := by
  induction e with
  | leaf l =>
    cases l with
    | literal n =>
      have hn : Utf8.IsScalar n := h
      cases henc : s.encoding <;>
        simp_all [Encodable, Leaf.transitions, Encoding.encode, Encoding.isUnicode]
    | dot => simp [Encodable, Leaf.transitions]
    | charClass set => simp [Encodable, Leaf.transitions]
  | alternation l r ihl ihr => exact ⟨ihl h.1,ihr h.2⟩
  | concatenation l r ihl ihr => exact ⟨ihl h.1,ihr h.2⟩
  | repetition min max greedy e ih => exact ih h.2

theorem sound_foldl {operator : Term → Term → Term}
    (hoperator : ∀ {l r : Term}, l.Sound → r.Sound → (operator l r).Sound) {rest : List Term}
    (h : e.Sound) (hrest : ∀ d ∈ rest, d.Sound) : (rest.foldl operator e).Sound := by
  induction rest generalizing e with
  | nil => exact h
  | cons d rest ih =>
    obtain ⟨hd,hrest⟩ := List.forall_mem_cons.mp hrest
    exact ih (hoperator h hd) hrest

theorem sound_chain {operator : Term → Term → Term}
    (hoperator : ∀ {l r : Term}, l.Sound → r.Sound → (operator l r).Sound) {es : List Term}
    (hes : ∀ d ∈ es, d.Sound) (h : chain operator es = some e) : e.Sound := by
  cases es with
  | nil => cases h
  | cons d rest =>
    obtain ⟨hd,hrest⟩ := List.forall_mem_cons.mp hes
    cases h
    exact sound_foldl hoperator hd hrest

theorem sound_concatenationOf {es : List (Option Term)} (hes : ∀ d, some d ∈ es → d.Sound)
    (h : concatenationOf es = some e) : e.Sound :=
  sound_chain And.intro (fun d hd => hes d (List.reduceOption_mem_iff.mp hd)) h

theorem sound_alternationOf {es : List (Option Term)} (hes : ∀ d, some d ∈ es → d.Sound)
    (h : alternationOf es = some e) : e.Sound := by
  obtain ⟨d,hd,rfl⟩ := Option.map_eq_some_iff.mp h
  have hsound : d.Sound :=
    sound_chain And.intro (fun d hd => hes d (List.reduceOption_mem_iff.mp hd)) hd
  split
  · exact ⟨by simp,hsound⟩
  · exact hsound

end Term

namespace Expr
variable {e : Expr} {d : Term}

theorem sound_leaf (set : ByteClass) : (Term.leaf set.leaf).Sound := by
  unfold ByteClass.leaf
  split <;> trivial

theorem WellFormed.sound_term (he : e.WellFormed) (h : e.term? = some d) : d.Sound := by
  induction e generalizing d with
  | empty => cases h
  | literal bytes =>
    rw [term?] at h
    refine Term.sound_concatenationOf (fun d hd => ?_) h
    obtain ⟨p,hp,heq⟩ := List.mem_map.mp hd
    obtain rfl := Option.some.inj heq
    have hvalid := (Utf8.flatMap_pieces bytes).2 p hp
    cases p with
    | scalar n => exact hvalid
    | stray b => trivial
  | byteClass set =>
    obtain rfl := Option.some.inj h
    exact sound_leaf set
  | charClass set =>
    rw [term?] at h
    cases hbytes : set.toByteClass? with
    | some bytes =>
      rw [hbytes] at h
      obtain rfl := Option.some.inj h
      exact sound_leaf bytes
    | none =>
      rw [hbytes] at h
      refine Term.sound_alternationOf (fun d hd => ?_) h
      obtain ⟨n,hn,heq⟩ := List.mem_map.mp hd
      obtain rfl := Option.some.inj heq
      exact (Tree.mem_scalars.mp hn).1
  | assertion a => cases h
  | repetition min max greedy sub ih =>
    obtain ⟨hbounds,hsub⟩ := wellFormed_repetition.mp he
    rw [term?] at h
    split at h
    · cases h
    · rename_i hround
      obtain ⟨d',hd',rfl⟩ := Option.map_eq_some_iff.mp h
      refine ⟨fun m hm => ⟨hbounds m hm,fun hzero => hround ?_⟩,ih hsub hd'⟩
      have hle := hbounds m hm
      exact ⟨by omega,hzero ▸ hm⟩
  | capture index name sub ih =>
    rw [term?] at h
    exact ih (wellFormed_capture.mp he) h
  | concat items ih =>
    rw [term?, terms_eq_map] at h
    refine Term.sound_concatenationOf (fun d hd => ?_) h
    obtain ⟨e,hmem,hterm⟩ := List.mem_map.mp hd
    exact ih e hmem (wellFormed_concat.mp he e hmem) hterm
  | alternation items ih =>
    rw [term?, terms_eq_map] at h
    refine Term.sound_alternationOf (fun d hd => ?_) h
    obtain ⟨e,hmem,hterm⟩ := List.mem_map.mp hd
    exact ih e hmem ((wellFormed_alternation.mp he).2 e hmem) hterm

end Expr

theorem PatternSettings.text_plain {settings : PatternSettings}
    (h : settings.fixedString = false) (pattern : String) :
    settings.text pattern = pattern.toList := by
  simp [text, h]

theorem PatternSettings.text_fixed {settings : PatternSettings} (h : settings.fixedString = true)
    (pattern : String) : settings.text pattern = Pattern.quote pattern.toList := by
  simp [text, h]

section Compile
variable {settings : Settings} {pattern : String} {e : Expr} {t : Tree} {d : Term}

/-- The pattern has a tree: that of its expression, without the reluctant end, which spells the
term `d`. -/
structure Lowers (settings : PatternSettings) (caseInsensitive : Bool) (pattern : String) (e : Expr)
    (t : Tree) (d : Term) : Prop where
  ofPattern : Expr.ofPattern settings caseInsensitive pattern = .ok e
  wellFormed : e.trimLazyEnd.WellFormed
  noObstacle : e.trimLazyEnd.firstObstacle? = none
  term : e.trimLazyEnd.term? = some d
  ofExpr : Tree.ofExpr e.trimLazyEnd = .ok t
  wellFormedTree : t.WellFormed
  spells : t.Spells d

namespace Lowers

theorem of_term {settings : PatternSettings} {caseInsensitive : Bool}
    (he : Expr.ofPattern settings caseInsensitive pattern = .ok e)
    (hno : e.trimLazyEnd.firstObstacle? = none) (hterm : e.trimLazyEnd.term? = some d) :
    ∃ t, Lowers settings caseInsensitive pattern e t d := by
  obtain ⟨t,ht,hwell,hspells⟩ := Tree.ofExpr_of_term hno hterm
  exact ⟨t,he,Expr.wellFormed_trimLazyEnd (Expr.wellFormed_ofPattern he),hno,hterm,ht,hwell,hspells⟩

theorem of_tree {settings : PatternSettings} {caseInsensitive : Bool}
    (h : Tree.ofPattern settings caseInsensitive pattern = .ok t) :
    ∃ e d, Lowers settings caseInsensitive pattern e t d := by
  obtain ⟨e,he,ht⟩ := bind_eq_ok.mp h
  have hno : e.trimLazyEnd.firstObstacle? = none := by
    cases hfirst : e.trimLazyEnd.firstObstacle? with
    | none => rfl
    | some error => cases (Tree.ofExpr_of_obstacle hfirst).symm.trans ht
  cases hterm : e.trimLazyEnd.term? with
  | none => cases (Tree.ofExpr_of_no_term hno hterm).symm.trans ht
  | some d =>
    obtain ⟨t',h⟩ := of_term (mapError_eq_ok.mp he) hno hterm
    cases h.ofExpr.symm.trans ht
    exact ⟨e,d,h⟩

theorem tree {settings : PatternSettings} {caseInsensitive : Bool}
    (h : Lowers settings caseInsensitive pattern e t d) :
    Tree.ofPattern settings caseInsensitive pattern = .ok t := by
  rw [Tree.ofPattern, h.ofPattern]
  exact h.ofExpr

/-- The term can be unrolled, and shows what a build asks about. -/
theorem exists_unroll (h : Lowers settings.pattern false pattern e t d) :
    ∃ d', d.unroll = some d' ∧
      (d'.Encodable settings.builder ↔ d.Encodable settings.builder) ∧
      (d'.nullable = true ↔ [] ∈ e.trimLazyEnd.language) := by
  obtain ⟨d',hd'⟩ := (h.wellFormed.sound_term h.term).exists_unroll
  have hdenotes := Expr.denotes_term (s := { encoding := .utf8 }) rfl rfl h.wellFormed h.noObstacle
  rw [h.term] at hdenotes
  refine ⟨d',hd',Term.encodable_unroll hd',?_⟩
  cases hdenotes with
  | term hlanguage _ =>
    rw [← hlanguage, ← Term.language_unroll _ hd']
    exact (Term.nil_mem_language (Term.isBasic_of_unroll hd')).symm

end Lowers

/-- Compiling builds the tree of the pattern, once there is room. -/
theorem compile_eq (label : Nat) (hroom : settings.builder.HasRoom)
    (h : Tree.ofPattern settings.pattern false pattern = .ok t) :
    compile pattern label settings =
      match ((Builder.ofSettings settings.builder).setLabel label).build t with
      | (.ok _,b) => .ok b.graph
      | (.error failure,_) => .error (.build failure) := by
  rw [compile, h, mapError_ok, ok_bind, Builder.create_of_hasRoom hroom, mapError_ok, ok_bind]
  rfl

theorem compile_of_not_hasRoom (label : Nat) (hroom : ¬ settings.builder.HasRoom)
    (h : Tree.ofPattern settings.pattern false pattern = .ok t) :
    compile pattern label settings =
      .error (.build (.fault (.capacityOverflow (1 + settings.builder.sizeHint)))) := by
  rw [compile, h, mapError_ok, ok_bind, Builder.create_of_not_hasRoom hroom]
  rfl

theorem compile_of_build {label : Nat} {b : Builder} (hroom : settings.builder.HasRoom)
    (h : Lowers settings.pattern false pattern e t d)
    (hbuild : ((Builder.ofSettings settings.builder).setLabel label).build t = (.ok (),b)) :
    compile pattern label settings = .ok b.graph ∧
      b.graph.languageFrom 0 = t.language settings.builder := by
  refine ⟨?_,Builder.languageFrom_build h.wellFormedTree hbuild⟩
  rw [compile_eq label hroom h.tree, hbuild]

/-- A pattern that is compiled has a tree, and the automaton accepts the strings of the tree. -/
theorem lowers_of_compile {label : Nat} {g : Graph} (h : compile pattern label settings = .ok g) :
    settings.builder.HasRoom ∧ ∃ e t d, Lowers settings.pattern false pattern e t d ∧
      g.languageFrom 0 = t.language settings.builder := by
  obtain ⟨t,ht,hcompile⟩ := bind_eq_ok.mp h
  have htree := mapError_eq_ok.mp ht
  have hroom : settings.builder.HasRoom := by
    by_contra hroom
    cases (compile_of_not_hasRoom label hroom htree).symm.trans h
  obtain ⟨e,d,hlowers⟩ := Lowers.of_tree htree
  refine ⟨hroom,e,t,d,hlowers,?_⟩
  rw [compile_eq label hroom htree] at h
  cases hbuild : ((Builder.ofSettings settings.builder).setLabel label).build t with
  | mk result b =>
    rw [hbuild] at h
    cases result with
    | error failure => cases h
    | ok u =>
      obtain rfl := Except.ok.inj h
      exact (compile_of_build hroom hlowers hbuild).2

/-- A pattern whose literals can all be represented, and that takes a byte at least, is compiled. -/
theorem exists_compile (label : Nat) (hroom : settings.builder.HasRoom)
    (h : Lowers settings.pattern false pattern e t d) (henc : d.Encodable settings.builder)
    (hnil : [] ∉ e.trimLazyEnd.language) :
    ∃ g, compile pattern label settings = .ok g ∧
      g.languageFrom 0 = t.language settings.builder := by
  obtain ⟨d',hd',hencodable,hnullable⟩ := h.exists_unroll
  obtain ⟨b,hbuild⟩ :=
    Builder.exists_build (b := (Builder.ofSettings settings.builder).setLabel label)
      h.wellFormedTree h.spells hd' (hencodable.mpr henc)
      (Bool.eq_false_iff.mpr (mt hnullable.mp hnil))
  exact ⟨b.graph,compile_of_build hroom h hbuild⟩

/-- What compiling a pattern comes to. The first causes to refuse it lie in the text itself, the
next ones in what it stands for; then there may be no room for what is expected, and last come the
causes that a build has. -/
inductive CompileOutcome (pattern : String) (settings : Settings) :
    Except CompileError Graph → Prop where
  | unreadable {error : SyntaxError}
      (hparse : Pattern.parse (settings.pattern.text pattern) = .error error) :
      CompileOutcome pattern settings (.error (.pattern (.syntaxError error)))
  | meaningless {ast : Pattern.Ast} {error : SyntaxError}
      (hparse : Pattern.parse (settings.pattern.text pattern) = .ok ast)
      (hmeaning : ast.toExpr (.start settings.pattern false) = .error error)
      (hcause : Pattern.IsUnicodeError error) :
      CompileOutcome pattern settings (.error (.pattern (.syntaxError error)))
  | obstacle {e : Expr} {error : PatternError}
      (he : Expr.ofPattern settings.pattern false pattern = .ok e)
      (hfirst : e.trimLazyEnd.firstObstacle? = some error) :
      CompileOutcome pattern settings (.error (.pattern error))
  | emptyPattern {e : Expr} (he : Expr.ofPattern settings.pattern false pattern = .ok e)
      (hno : e.trimLazyEnd.firstObstacle? = none) (hempty : e.trimLazyEnd.language = 1) :
      CompileOutcome pattern settings (.error (.pattern .emptyPattern))
  | noRoom {e : Expr} {t : Tree} {d : Term} (hlowers : Lowers settings.pattern false pattern e t d)
      (hroom : ¬ settings.builder.HasRoom) :
      CompileOutcome pattern settings
        (.error (.build (.fault (.capacityOverflow (1 + settings.builder.sizeHint)))))
  | unencodableLiteral {e : Expr} {t u : Tree} {d : Term} {codePoint : Nat} {node : NodeId}
      (hlowers : Lowers settings.pattern false pattern e t d) (hroom : settings.builder.HasRoom)
      (hliteral : ¬ d.Encodable settings.builder)
      (hencoding : settings.builder.encoding.isUnicode = false) (hunroll : t.unroll = .ok u)
      (hfirst : u.leaveOrder.findSome? (u.unencodable? settings.builder) = some (codePoint,node)) :
      CompileOutcome pattern settings
        (.error (.build (.rejected (.unencodableLiteral codePoint node))))
  | zeroLengthMatch {e : Expr} {t : Tree} {d : Term}
      (hlowers : Lowers settings.pattern false pattern e t d) (hroom : settings.builder.HasRoom)
      (hliterals : d.Encodable settings.builder) (hnil : [] ∈ e.trimLazyEnd.language) :
      CompileOutcome pattern settings (.error (.build (.rejected .zeroLengthMatch)))
  | automaton {e : Expr} {t : Tree} {d : Term} {g : Graph}
      (hlowers : Lowers settings.pattern false pattern e t d) (hroom : settings.builder.HasRoom)
      (hliterals : d.Encodable settings.builder) (hnil : [] ∉ e.trimLazyEnd.language)
      (hlanguage : g.languageFrom 0 = t.language settings.builder)
      (hmatch : [] ∉ g.languageFrom 0) :
      CompileOutcome pattern settings (.ok g)

/-- A pattern has an expression unless it cannot be parsed, or names characters that are not to be
had. -/
theorem Expr.ofPattern_error {settings : PatternSettings} {caseInsensitive : Bool}
    {error : SyntaxError} (h : Expr.ofPattern settings caseInsensitive pattern = .error error) :
    Pattern.parse (settings.text pattern) = .error error ∨
      ∃ ast, Pattern.parse (settings.text pattern) = .ok ast ∧
        ast.toExpr (.start settings caseInsensitive) = .error error ∧
        Pattern.IsUnicodeError error := by
  rw [Expr.ofPattern] at h
  cases hparse : Pattern.parse (settings.text pattern) with
  | error _ =>
    rw [hparse] at h
    cases h
    exact Or.inl rfl
  | ok ast =>
    rw [hparse, ok_bind] at h
    have hrefuses := Pattern.refuses_toExpr ast (.start settings caseInsensitive)
    cases hmeaning : ast.toExpr (.start settings caseInsensitive) with
    | error _ =>
      rw [hmeaning] at h hrefuses
      cases h
      exact Or.inr ⟨ast,rfl,hmeaning,hrefuses.of_error⟩
    | ok r =>
      rw [hmeaning] at h
      cases h

/-- An expression has a tree unless there is an obstacle, or nothing but the empty string to
match. -/
theorem Tree.ofExpr_error {error : PatternError} (hwell : e.WellFormed)
    (h : ofExpr e = .error error) : e.firstObstacle? = some error ∨
      e.firstObstacle? = none ∧ e.language = 1 ∧ error = .emptyPattern := by
  cases hfirst : e.firstObstacle? with
  | some obstacle =>
    cases (ofExpr_of_obstacle hfirst).symm.trans h
    exact Or.inl rfl
  | none =>
    have hdenotes := Expr.denotes_term (s := { encoding := .utf8 }) rfl rfl hwell hfirst
    cases hterm : e.term? with
    | none =>
      cases (ofExpr_of_no_term hfirst hterm).symm.trans h
      exact Or.inr ⟨rfl,hdenotes.eq_none_iff.mp hterm,rfl⟩
    | some d =>
      obtain ⟨t,ht,-⟩ := ofExpr_of_term hfirst hterm
      cases ht.symm.trans h

/-- A pattern that has no tree is refused for the reason that keeps it from having one. -/
theorem outcome_of_no_tree (label : Nat) {error : PatternError}
    (h : Tree.ofPattern settings.pattern false pattern = .error error) :
    CompileOutcome pattern settings (compile pattern label settings) := by
  have hcompile : compile pattern label settings = .error (.pattern error) := by
    rw [compile, h]
    rfl
  rw [hcompile]
  rw [Tree.ofPattern] at h
  cases he : Expr.ofPattern settings.pattern false pattern with
  | error failure =>
    rw [he] at h
    cases h
    rcases Expr.ofPattern_error he with hparse | ⟨ast,hparse,hmeaning,hcause⟩
    · exact .unreadable hparse
    · exact .meaningless hparse hmeaning hcause
  | ok e =>
    rw [he, mapError_ok, ok_bind] at h
    have hwell := Expr.wellFormed_trimLazyEnd (Expr.wellFormed_ofPattern he)
    rcases Tree.ofExpr_error hwell h with hfirst | ⟨hno,hempty,rfl⟩
    · exact .obstacle he hfirst
    · exact .emptyPattern he hno hempty

/-- A pattern that has a tree is refused for a literal that cannot be represented, or since it
matches the empty string. -/
theorem Lowers.outcome (h : Lowers settings.pattern false pattern e t d) (label : Nat)
    (hroom : settings.builder.HasRoom) :
    CompileOutcome pattern settings (compile pattern label settings) := by
  obtain ⟨d',hd',hencodable,hnullable⟩ := h.exists_unroll
  by_cases hready : d.Encodable settings.builder ∧ [] ∉ e.trimLazyEnd.language
  · obtain ⟨henc,hnil⟩ := hready
    obtain ⟨g,hg,hlanguage⟩ := exists_compile label hroom h henc hnil
    rw [hg]
    refine .automaton h hroom henc hnil hlanguage ?_
    rw [hlanguage, h.spells.language_eq, ← Term.language_unroll _ hd',
      Term.nil_mem_language (Term.isBasic_of_unroll hd'), hnullable]
    exact hnil
  · obtain ⟨root,c,d₀,hrep⟩ := h.wellFormedTree.exists_represents
    obtain rfl := h.spells.unique hrep.spells
    obtain ⟨u,root',child,hu,hrep',houtcome⟩ :=
      Builder.assemble_of_unroll settings.builder label hrep hd'
    have hresult : (((Builder.ofSettings settings.builder).setLabel label).build t).1 =
        (Builder.assemble settings.builder label t).map fun _ => () := (Builder.build_eq _ t).1
    rw [compile_eq label hroom h.tree]
    generalize Builder.build _ t = r at hresult ⊢
    generalize Builder.assemble settings.builder label t = x at houtcome hresult
    obtain ⟨result,b⟩ := r
    obtain rfl : result = x.map fun _ => () := hresult
    cases houtcome with
    | @unencodable hnot codePoint node hfirst =>
      have hbad := mt hencodable.mpr hnot
      have hlimited :=
        Bool.eq_false_iff.mpr (mt (h.wellFormed.sound_term h.term).encodable hbad)
      rw [← hrep'.findSome?_leaveOrder] at hfirst
      exact .unencodableLiteral h hroom hbad hlimited hu hfirst
    | nullable henc hn =>
      exact .zeroLengthMatch h hroom (hencodable.mp henc) (hnullable.mp hn)
    | automaton henc hn =>
      refine absurd ⟨hencodable.mp henc,fun hmem => ?_⟩ hready
      rw [hnullable.mpr hmem] at hn
      cases hn

/-- Compiling any pattern comes to one of these outcomes. -/
theorem compile_outcome (pattern : String) (label : Nat) (settings : Settings) :
    CompileOutcome pattern settings (compile pattern label settings) := by
  cases htree : Tree.ofPattern settings.pattern false pattern with
  | error error => exact outcome_of_no_tree label htree
  | ok t =>
    obtain ⟨e,d,hlowers⟩ := Lowers.of_tree htree
    by_cases hroom : settings.builder.HasRoom
    · exact hlowers.outcome label hroom
    · rw [compile_of_not_hasRoom label hroom htree]
      exact .noRoom hlowers hroom

/-- A letter and two characters that have a property. -/
theorem compile_outcome_joiners :
    let settings : Settings :=
      { builder := { encoding := .utf8 },
        pattern := { properties := [("Join_C",some [('\u200C','\u200D')])] } }
    ∃ g, compile "(?u)x\\p\x7bJoin_C\x7d\x7b2\x7d" 3 settings = .ok g ∧
      CompileOutcome "(?u)x\\p\x7bJoin_C\x7d\x7b2\x7d" settings (.ok g) := by
  intro settings
  have hok : (compile "(?u)x\\p\x7bJoin_C\x7d\x7b2\x7d" 3 settings).isOk = true := by
    decide +kernel
  have houtcome := compile_outcome "(?u)x\\p\x7bJoin_C\x7d\x7b2\x7d" 3 settings
  cases hg : compile "(?u)x\\p\x7bJoin_C\x7d\x7b2\x7d" 3 settings with
  | error error =>
    rw [hg] at hok
    cases hok
  | ok g =>
    rw [hg] at houtcome
    exact ⟨g,rfl,houtcome⟩

/-- No memory has room for so many vertices, so compiling even a letter ends in a fault. -/
theorem compile_outcome_hugeSizeHint :
    compile "a" 0 { builder := { sizeHint := 2 ^ 63 - 1 } } =
      .error (.build (.fault (.capacityOverflow (2 ^ 63)))) := by
  decide +kernel

end Compile

end ByteAutomata

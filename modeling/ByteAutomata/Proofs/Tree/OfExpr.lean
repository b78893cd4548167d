import ByteAutomata.Proofs.Tree.Denotation

/-! # Trees of expressions

An expression has a tree unless one of its nodes cannot be added or nothing but the empty string is
matched. The tree is well formed, and its language is that of the expression. -/
namespace ByteAutomata
namespace Tree
variable {t : Tree} {e : Expr} {d : Term}

theorem ofExpr_of_obstacle {error : PatternError} (h : e.firstObstacle? = some error) :
    ofExpr e = .error error := by
  have hends := endsIn_addExpr e descending_empty
  rw [h] at hends
  rw [ofExpr]
  generalize empty.addExpr e = outcome at hends
  cases hends
  rfl

theorem ofExpr_of_no_term (h : e.firstObstacle? = none) (hterm : e.term? = none) :
    ofExpr e = .error .emptyPattern := by
  have hends := endsIn_addExpr e descending_empty
  rw [h, hterm] at hends
  rw [ofExpr]
  generalize empty.addExpr e = outcome at hends
  cases hends with
  | @ok r hr =>
    obtain ⟨id?,t⟩ := r
    obtain ⟨keeps,descending,reads⟩ := hr
    cases reads
    rfl

theorem ofExpr_of_term (h : e.firstObstacle? = none) (hterm : e.term? = some d) :
    ∃ t, ofExpr e = .ok t ∧ t.WellFormed ∧ t.Spells d := by
  have hends := endsIn_addExpr e descending_empty
  rw [h, hterm] at hends
  rw [ofExpr]
  generalize empty.addExpr e = outcome at hends
  cases hends with
  | @ok r hr =>
    obtain ⟨id?,t⟩ := r
    obtain ⟨keeps,descending,reads⟩ := hr
    cases reads with
    | @some child _ reads =>
      let top := t.add (.regexp child)
      have htop : top.2.get? top.1 = some (.regexp child) := get?_add _
      have hdesc : top.2.Descending := descending.add _ fun c hc => by
        obtain rfl : c = child := by simpa using hc
        exact reads.lt_size
      have hreads : top.2.Reads child d := reads.mono (extends_add _)
      have hsame : top.2.Extends (top.2.withRoot top.1) := fun _ _ h => h
      have hreads' := hreads.mono hsame
      have hclosed : (top.2.withRoot top.1).Closed := Descending.closed hdesc fun root hroot => by
        obtain rfl : top.1 = root := Option.some.inj hroot
        exact lt_size_of_get? htop
      exact ⟨top.2.withRoot top.1,rfl,.of_reads hclosed rfl htop hreads',top.1,child,rfl,htop,
        hreads'⟩

/-- The first obstacle keeps an expression from having a tree; without any, a tree is missing only
if there is nothing but the empty string to match. -/
theorem ofExpr_language (e : Expr) (he : e.WellFormed) :
    (∀ error, e.firstObstacle? = some error → ofExpr e = .error error) ∧
    (e.firstObstacle? = none →
      (ofExpr e = .error .emptyPattern ↔ e.language = 1) ∧
      (e.language ≠ 1 → ∃ t d, ofExpr e = .ok t ∧ t.WellFormed ∧ t.Spells d ∧ e.term? = some d ∧
        ∀ s : BuilderSettings, s.encoding = .utf8 → s.caseSensitive = true →
          t.language s = e.language)) ∧
    ∀ set : ByteClass, .byteClass set ∈ e.nodes → set.Canonical →
      ((Expr.byteClass set).term? = some (.leaf .dot) ↔
        ∀ b : UInt8, set.contains b.toNat = true) := by
  refine ⟨fun error => ofExpr_of_obstacle,fun hno => ?_,fun set _ hset => ?_⟩
  · have hdenotes : ∀ s : BuilderSettings, s.encoding = .utf8 → s.caseSensitive = true →
        Denotes s e.language e.term? := fun s hutf hcase => Expr.denotes_term hcase hutf he hno
    have hnone := (hdenotes { encoding := .utf8 } rfl rfl).eq_none_iff
    constructor
    · rw [← hnone]
      refine ⟨fun herror => ?_,ofExpr_of_no_term hno⟩
      cases hterm : e.term? with
      | none => rfl
      | some d =>
        obtain ⟨t,ht,-⟩ := ofExpr_of_term hno hterm
        rw [ht] at herror
        cases herror
    · intro hne
      obtain ⟨d,hterm⟩ := Option.ne_none_iff_exists'.mp (mt hnone.mp hne)
      obtain ⟨t,ht,hwell,hspells⟩ := ofExpr_of_term hno hterm
      refine ⟨t,d,ht,hwell,hspells,hterm,fun s hutf hcase => ?_⟩
      have hs := hdenotes s hutf hcase
      rw [hterm] at hs
      rw [hspells.language_eq]
      cases hs with
      | term hd _ => exact hd
  · rw [← ByteClass.isAnyByte_iff hset, Expr.term?, ByteClass.leaf]
    cases (Expr.byteClass set).isAnyByte <;> simp

end Tree

/-- `|\xc3\xa9\xff(.{2,3}?)[éê]`, whose literal is a character and a stray byte. -/
def Expr.strayByte : Expr :=
  .alternation [.empty,.concat [.literal [0xC3,0xA9,0xFF],
    .capture 1 none (.repetition 2 (some 3) false (.byteClass (.ofRanges [(0,0xFF)]))),
    .charClass (.ofRanges [(0xE9,0xEA)])]]

theorem Tree.ofExpr_language_strayByte :
    Expr.strayByte.WellFormed ∧ Expr.strayByte.firstObstacle? = none ∧
      Expr.strayByte.language ≠ 1 ∧
      ∃ t d, ofExpr Expr.strayByte = .ok t ∧ t.WellFormed ∧ t.Spells d ∧
        Expr.strayByte.term? = some d ∧
        ∀ s : BuilderSettings, s.encoding = .utf8 → s.caseSensitive = true →
          t.language s = Expr.strayByte.language := by
  have hwell : Expr.strayByte.WellFormed := by
    have hends : Intervals.Ends Utf8.IsScalar (.ofRanges [(0xE9,0xEA)] : CharClass).ranges :=
      Intervals.ends_ofRanges (Intervals.ends_cons.mpr ⟨by decide,Intervals.ends_nil⟩)
    simpa [Expr.strayByte, Expr.WellFormed, Expr.nodes, Expr.nodesOfAll, Expr.IsSound] using hends
  have hno : Expr.strayByte.firstObstacle? = none := by decide +kernel
  obtain ⟨-,hspec,-⟩ := Tree.ofExpr_language Expr.strayByte hwell
  obtain ⟨hempty,htree⟩ := hspec hno
  have herror : ofExpr Expr.strayByte ≠ .error .emptyPattern := by decide +kernel
  have hne : Expr.strayByte.language ≠ 1 := mt hempty.mpr herror
  exact ⟨hwell,hno,hne,htree hne⟩

end ByteAutomata

import ByteAutomata.Proofs.Compile
import ByteAutomata.Proofs.Expr.IgnoringCase
import ByteAutomata.Proofs.Pattern.CaseFolding

/-! # Two ways to ignore the case

The case of letters can be ignored when a pattern is read, class by class from the inside out, or
when its automaton is built, where the finished classes and bytes are completed. Both accept the
same, unless a class is made with an operation that tells the cases of a letter apart. They also
have to trim the same reluctant ends. What all alternatives begin with is moved in front of them,
and trimming misses the ends that this hides; but alternatives that share their beginning without
case, as in `ab*?|Ab*?`, need not share it with case. -/
namespace ByteAutomata
namespace Pattern
variable {settings : PatternSettings}

section Conditions

/-- Whether a node neither sets nor clears a flag. -/
def Ast.SetsNoFlags : Ast → Prop
  | .flags .. => False
  | .group _ (.flags list) _ => list = []
  | _ => True

/-- Whether a node is no class in which cases are told apart. -/
def Ast.IsCaseSafe : Ast → Prop
  | .bracketed span negated set => (ClassItem.bracketed span negated set).IsCaseSafe
  | _ => True

mutual

/-- Whether trimming misses the same reluctant ends of a part with case as without. What hides them
are the leading items that all alternatives share: in `ab*?|Ab*?` there are such items without case
only. So the alternatives at the end do not share a reluctant end in either reading, or else they
leave nothing to trim in both, as in `ab*?|ab*?`. -/
def Ast.IsSettled (settings : PatternSettings) : Ast → Prop
  | .repetition _ count greedy sub =>
    greedy = true ∧ ¬ (count.min = 1 ∧ count.max = some 1) ∨ count.min = 0 ∨ sub.IsSettled settings
  | .group _ _ sub => sub.IsSettled settings
  | .alternation _ items =>
    (AllSettled settings items ∧ ∀ caseInsensitive r,
      toExprs (.start settings caseInsensitive) items = .ok r →
        Expr.sharesReluctantEnd r.1 = false) ∨
    ∀ caseInsensitive r, toExprs (.start settings caseInsensitive) items = .ok r →
      (Expr.choice r.1).endsReluctantly = false
  | .concat _ items => LastSettled settings items
  | .empty _ | .flags .. | .literal _ | .dot _ | .assertion .. | .propertyClass ..
  | .shorthandClass .. | .bracketed .. => True

def AllSettled (settings : PatternSettings) : List Ast → Prop
  | [] => True
  | ast :: rest => ast.IsSettled settings ∧ AllSettled settings rest

/-- The same of the last item, and of the one before if nothing is left of the items behind. -/
def LastSettled (settings : PatternSettings) : List Ast → Prop
  | [] => True
  | ast :: rest => LastSettled settings rest ∧
      ((∀ caseInsensitive r, toExprs (.start settings caseInsensitive) rest = .ok r →
        r.1.all Expr.vanishes = true) → ast.IsSettled settings)

end

end Conditions

section Parts

theorem isSymbol_literal (flags : Flags) (lit : Literal) : (flags.literal lit).IsSymbol := by
  unfold Flags.literal
  dsimp only
  split
  · split
    · exact Expr.isSymbol_ofCharClass _
    · exact Utf8.encode_ne_nil _
  · split
    · exact List.cons_ne_nil _ _
    · split
      · exact Expr.isSymbol_ofByteClass _
      · exact Utf8.encode_ne_nil _

theorem isSymbol_bracketed {flags : Flags} {negated : Bool} {set : ClassSet} {e : Expr}
    (h : flags.bracketed negated set = .ok e) : e.IsSymbol := by
  unfold Flags.bracketed at h
  dsimp only at h
  split at h
  · obtain ⟨s,-,he⟩ := bind_eq_ok.mp h
    cases he
    exact Expr.isSymbol_ofCharClass _
  · obtain ⟨s,-,he⟩ := bind_eq_ok.mp h
    cases he
    exact Expr.isSymbol_ofByteClass _

theorem ignoresCase_ofByteClass {s t : ByteClass} (h : ∀ n, s.contains n = true ↔ t.HasCase n) :
    (Expr.ofByteClass s).IgnoresCase (Expr.ofByteClass t) :=
  .symbol (Expr.each_ofByteClass Expr.kept_isTidy s) (Expr.each_ofByteClass Expr.kept_isTidy t)
    (Expr.isSymbol_ofByteClass s) (Expr.isSymbol_ofByteClass t)
    (by rw [Expr.language_ofByteClass, Expr.language_ofByteClass, byteStrings_ignoringCase h])

theorem language_literal {lit : Literal} (hlit : lit.IsSound) :
    ((Flags.start settings true).literal lit).language =
      ignoringCase ((Flags.start settings false).literal lit).language := by
  have hscalar : Utf8.IsScalar lit.char.toNat := lit.char.valid
  unfold Flags.literal
  simp only [Flags.start, Bool.false_eq_true, if_false, true_and, false_and]
  split
  · rename_i hbyte
    have hvalue : (UInt8.ofNat lit.char.toNat).toNat = lit.char.toNat :=
      UInt8.toNat_ofNat_of_lt' (hlit hbyte.1)
    refine (ignoringCase_plain fun b hb => ?_).symm
    obtain rfl := List.mem_singleton.mp hb
    exact otherCase_of_le (by rw [hvalue]; exact hbyte.2)
  · split
    · rename_i hascii
      have hencode : Utf8.encode lit.char.toNat = [UInt8.ofNat lit.char.toNat] := if_pos hascii
      have hsingle : Expr.byteStrings (.singleton lit.char.toNat) =
          {[UInt8.ofNat lit.char.toNat]} := by
        have hvalue : (UInt8.ofNat lit.char.toNat).toNat = lit.char.toNat :=
          UInt8.toNat_ofNat_of_lt' (hascii.trans (by decide))
        have hlast : lit.char.toNat ≤ 0xFF := hascii.le.trans (by decide)
        ext w
        constructor
        · rintro ⟨b,hb,rfl⟩
          rw [← (Intervals.contains_singleton.mp hb).2, UInt8.ofNat_toNat]
          rfl
        · rintro rfl
          exact ⟨_,Intervals.contains_singleton.mpr ⟨hlast,hvalue⟩,rfl⟩
      rw [Expr.language_ofByteClass, byteStrings_ignoringCase fun n => contains_fold, hsingle,
        hencode]
      rfl
    · rename_i hascii
      exact (ignoringCase_plain fun b hb =>
        Encoding.otherCase_of_mem_utf8 (Nat.le_of_not_lt hascii) hscalar hb).symm

theorem ignoresCase_literal {lit : Literal} (hlit : lit.IsSound) :
    ((Flags.start settings true).literal lit).IgnoresCase
      ((Flags.start settings false).literal lit) :=
  .symbol (each_literal Expr.kept_isTidy _ lit) (each_literal Expr.kept_isTidy _ lit)
    (isSymbol_literal _ lit) (isSymbol_literal _ lit) (language_literal hlit)

theorem ignoresCase_dot :
    (Flags.start settings true).dot.IgnoresCase (Flags.start settings false).dot := by
  have hclosed : ∀ newLine : Bool, (Intervals.compl (.ofRanges
      (if newLine then [] else [(0x0A,0x0A)])) : ByteClass).IsCaseClosed := by
    intro newLine
    refine isCaseClosed_of_le fun n hn => ?_
    revert n
    cases newLine <;> decide +kernel
  exact ignoresCase_ofByteClass fun n => ((hclosed settings.dotMatchesNewLine).hasCase_iff).symm

theorem ignoresCase_shorthandClass (settings : PatternSettings) (kind : ShorthandKind) (negated : Bool) :
    ((Flags.start settings true).shorthandClass kind negated).IgnoresCase
      ((Flags.start settings false).shorthandClass kind negated) :=
  ignoresCase_ofByteClass fun _ => (isCaseClosed_shorthandClass kind negated).hasCase_iff.symm

theorem ignoresCase_bracketed {span : Span} {negated : Bool} {set : ClassSet} {e f : Expr}
    (hsafe : (ClassItem.bracketed span negated set).IsCaseSafe)
    (he : (Flags.start settings true).bracketed negated set = .ok e)
    (hf : (Flags.start settings false).bracketed negated set = .ok f) : e.IgnoresCase f := by
  obtain ⟨s,hs,he⟩ := bind_eq_ok.mp he
  obtain ⟨t,ht,hf⟩ := bind_eq_ok.mp hf
  cases he
  cases hf
  have hsame := sameLetters_members hsafe (bind_eq_ok.mpr ⟨s,hs,rfl⟩) (bind_eq_ok.mpr ⟨t,ht,rfl⟩)
  exact ignoresCase_ofByteClass fun n =>
    (isCaseClosed_finish s negated).hasCase_iff.symm.trans (hsame n)

mutual

theorem snd_toExpr : ∀ {ast : Ast} {flags : Flags} {r : Expr × Flags}, ast.Each Ast.SetsNoFlags →
    ast.toExpr flags = .ok r → r.2 = flags
  | .empty _, flags, r, _, h | .literal _, flags, r, _, h | .dot _, flags, r, _, h
  | .assertion .., flags, r, _, h | .shorthandClass .., flags, r, _, h => by
    cases h
    rfl
  | .flags .., _, _, hno, _ => hno.elim
  | .propertyClass .., flags, r, _, h | .bracketed .., flags, r, _, h => by
    obtain ⟨e,-,hr⟩ := bind_eq_ok.mp h
    cases hr
    rfl
  | .repetition .., flags, r, hno, h => by
    obtain ⟨q,hq,rfl⟩ := toExpr_repetition h
    have hflags := snd_toExpr hno.2 hq
    exact hflags
  | .group _ (.flags _) _, flags, r, _, h | .group _ (.capture ..) _, flags, r, _, h => by
    obtain ⟨q,-,hr⟩ := bind_eq_ok.mp h
    cases hr
    rfl
  | .alternation .., flags, r, hno, h => by
    obtain ⟨q,hq,rfl⟩ := toExpr_alternation h
    have hflags := snd_toExprs hno.2 hq
    exact hflags
  | .concat .., flags, r, hno, h => by
    obtain ⟨q,hq,rfl⟩ := toExpr_concat h
    have hflags := snd_toExprs hno.2 hq
    exact hflags

theorem snd_toExprs : ∀ {items : List Ast} {flags : Flags} {r : List Expr × Flags},
    EachOf Ast.SetsNoFlags items → toExprs flags items = .ok r → r.2 = flags
  | [], flags, r, _, h => by
    cases h
    rfl
  | ast :: rest, flags, r, hno, h => by
    obtain ⟨q,p,hq,hp,rfl⟩ := toExprs_cons h
    exact (snd_toExprs hno.2 hp).trans (snd_toExpr hno.1 hq)

end

end Parts

section Plain

/-- What is asked of the nodes of a pattern: it has been parsed, sets no flags and has no class in
which cases are told apart. -/
def Ast.IsPlain (ast : Ast) : Prop := (ast.IsSound ∧ ast.SetsNoFlags) ∧ ast.IsCaseSafe

/-- Whether a node has no parts. -/
def Ast.IsLeaf : Ast → Prop
  | .repetition .. | .group .. | .alternation .. | .concat .. => False
  | _ => True

variable {flags : Flags} {span : Span} {sub : Ast} {r : Expr × Flags}

theorem Ast.Each.setsNoFlags (h : sub.Each Ast.IsPlain) : sub.Each Ast.SetsNoFlags :=
  h.mono fun _ h => h.1.2

/-- All parts of a plain pattern are read with the same flags. -/
theorem repeated_of_toExpr {count : Count} {greedy : Bool} (hplain : sub.Each Ast.IsPlain)
    (h : (Ast.repetition span count greedy sub).toExpr flags = .ok r) :
    ∃ q, sub.toExpr flags = .ok q ∧
      r.1 = .repeated count.min count.max (greedy != flags.swapGreed) q.1 := by
  obtain ⟨q,hq,rfl⟩ := toExpr_repetition h
  exact ⟨q,hq,by rw [snd_toExpr hplain.setsNoFlags hq]⟩

/-- What is made of the expression in a group that sets no flags. -/
def GroupKind.enclose : GroupKind → Expr → Expr
  | .flags _, e => e
  | .capture index name, e => .capture index name e

theorem GroupKind.ignoresCase_enclose {e f : Expr} (h : e.IgnoresCase f) (kind : GroupKind) :
    (kind.enclose e).IgnoresCase (kind.enclose f) := by
  cases kind with
  | flags list => exact h
  | capture index name => exact h.capture index name

theorem GroupKind.trimmed_enclose (kind : GroupKind) (e : Expr) :
    (kind.enclose e).trimmed = e.trimmed := by
  cases kind <;> rfl

theorem enclosed_of_toExpr {kind : GroupKind} (hplain : (Ast.group span kind sub).IsPlain)
    (h : (Ast.group span kind sub).toExpr flags = .ok r) :
    ∃ q, sub.toExpr flags = .ok q ∧ r.1 = kind.enclose q.1 := by
  obtain ⟨⟨-,hno⟩,-⟩ := hplain
  cases kind with
  | flags list =>
    obtain rfl : list = [] := hno
    obtain ⟨q,hq,hr⟩ := bind_eq_ok.mp h
    cases hr
    exact ⟨q,hq,rfl⟩
  | capture index name =>
    obtain ⟨q,hq,hr⟩ := bind_eq_ok.mp h
    cases hr
    exact ⟨q,hq,rfl⟩

theorem cons_of_toExprs {rest : List Ast} {r : List Expr × Flags} (hplain : sub.Each Ast.IsPlain)
    (h : toExprs flags (sub :: rest) = .ok r) :
    ∃ q p, sub.toExpr flags = .ok q ∧ toExprs flags rest = .ok p ∧ r.1 = q.1 :: p.1 := by
  obtain ⟨q,p,hq,hp,rfl⟩ := toExprs_cons h
  rw [snd_toExpr hplain.setsNoFlags hq] at hp
  exact ⟨q,p,hq,hp,rfl⟩

end Plain

section Patterns

/-- An item without parts is read as an expression that has no reluctant end. -/
theorem ignoresCase_leaf {ast : Ast} {r r' : Expr × Flags}
    (h : ast.toExpr (.start settings true) = .ok r)
    (h' : ast.toExpr (.start settings false) = .ok r') (hplain : ast.IsPlain)
    (hleaf : ast.IsLeaf) :
    r.1.IgnoresCase r'.1 ∧ r.1.endsReluctantly = false ∧ r'.1.endsReluctantly = false := by
  have hsymbols {e f : Expr} (hsame : e.IgnoresCase f) (he : e.IsSymbol) (hf : f.IsSymbol) :
      e.IgnoresCase f ∧ e.endsReluctantly = false ∧ f.endsReluctantly = false :=
    ⟨hsame,he.endsReluctantly,hf.endsReluctantly⟩
  cases ast with
  | empty _ =>
    cases h
    cases h'
    exact ⟨.refl_of_one (Expr.each_of_leaf rfl Expr.kept_isTidy.empty) rfl,rfl,rfl⟩
  | flags _ list => exact hplain.1.2.elim
  | literal lit =>
    cases h
    cases h'
    exact hsymbols (ignoresCase_literal hplain.1.1) (isSymbol_literal (.start settings true) lit)
      (isSymbol_literal (.start settings false) lit)
  | dot _ =>
    cases h
    cases h'
    exact hsymbols ignoresCase_dot (Expr.isSymbol_ofByteClass _) (Expr.isSymbol_ofByteClass _)
  | assertion _ kind =>
    cases h
    cases h'
    exact ⟨.refl_of_one (Expr.each_of_leaf rfl (Expr.kept_isTidy.assertion _)) rfl,rfl,rfl⟩
  | propertyClass span name negated => nomatch h
  | shorthandClass _ kind negated =>
    cases h
    cases h'
    exact hsymbols (ignoresCase_shorthandClass settings kind negated) (Expr.isSymbol_ofByteClass _)
      (Expr.isSymbol_ofByteClass _)
  | bracketed span negated set =>
    obtain ⟨e,he,hr⟩ := bind_eq_ok.mp h
    obtain ⟨f,hf,hr'⟩ := bind_eq_ok.mp h'
    cases hr
    cases hr'
    exact hsymbols (ignoresCase_bracketed hplain.2 he hf) (isSymbol_bracketed he)
      (isSymbol_bracketed hf)
  | repetition _ _ _ _ | group _ _ _ | alternation _ _ | concat _ _ => exact hleaf.elim

mutual

theorem ignoresCase_toExpr : ∀ {ast : Ast} {r r' : Expr × Flags}, ast.Each Ast.IsPlain →
    ast.toExpr (.start settings true) = .ok r → ast.toExpr (.start settings false) = .ok r' →
    r.1.IgnoresCase r'.1
  | .empty _, _, _, hplain, h, h' | .flags .., _, _, hplain, h, h'
  | .literal _, _, _, hplain, h, h' | .dot _, _, _, hplain, h, h'
  | .assertion .., _, _, hplain, h, h' | .propertyClass .., _, _, hplain, h, h'
  | .shorthandClass .., _, _, hplain, h, h' | .bracketed .., _, _, hplain, h, h' =>
    (ignoresCase_leaf h h' hplain trivial).1
  | .repetition _ count greedy sub, r, r', hplain, h, h' => by
    obtain ⟨q,hq,hr⟩ := repeated_of_toExpr hplain.2 h
    obtain ⟨q',hq',hr'⟩ := repeated_of_toExpr hplain.2 h'
    rw [hr, hr']
    exact (ignoresCase_toExpr hplain.2 hq hq').repeated hplain.1.1.1
  | .group _ kind sub, r, r', hplain, h, h' => by
    obtain ⟨q,hq,hr⟩ := enclosed_of_toExpr hplain.1 h
    obtain ⟨q',hq',hr'⟩ := enclosed_of_toExpr hplain.1 h'
    rw [hr, hr']
    exact kind.ignoresCase_enclose (ignoresCase_toExpr hplain.2 hq hq')
  | .alternation _ items, r, r', hplain, h, h' => by
    obtain ⟨q,hq,rfl⟩ := toExpr_alternation h
    obtain ⟨q',hq',rfl⟩ := toExpr_alternation h'
    exact .choice (ignoresCase_toExprs hplain.2 hq hq')
  | .concat _ items, r, r', hplain, h, h' => by
    obtain ⟨q,hq,rfl⟩ := toExpr_concat h
    obtain ⟨q',hq',rfl⟩ := toExpr_concat h'
    exact .sequence (ignoresCase_toExprs hplain.2 hq hq')

theorem ignoresCase_toExprs : ∀ {items : List Ast} {r r' : List Expr × Flags},
    EachOf Ast.IsPlain items → toExprs (.start settings true) items = .ok r →
    toExprs (.start settings false) items = .ok r' → List.Forall₂ Expr.IgnoresCase r.1 r'.1
  | [], r, r', _, h, h' => by
    cases h
    cases h'
    exact .nil
  | ast :: rest, r, r', hplain, h, h' => by
    obtain ⟨q,p,hq,hp,hr⟩ := cons_of_toExprs hplain.1 h
    obtain ⟨q',p',hq',hp',hr'⟩ := cons_of_toExprs hplain.1 h'
    rw [hr, hr']
    exact .cons (ignoresCase_toExpr hplain.1 hq hq') (ignoresCase_toExprs hplain.2 hp hp')

end

mutual

/-- What is left after trimming is the same as well. -/
theorem trimmed_toExpr : ∀ {ast : Ast} {r r' : Expr × Flags}, ast.Each Ast.IsPlain →
    ast.IsSettled settings → ast.toExpr (.start settings true) = .ok r →
    ast.toExpr (.start settings false) = .ok r' → r.1.trimmed = ignoringCase r'.1.trimmed
  | .empty _, _, _, hplain, _, h, h' | .flags .., _, _, hplain, _, h, h'
  | .literal _, _, _, hplain, _, h, h' | .dot _, _, _, hplain, _, h, h'
  | .assertion .., _, _, hplain, _, h, h' | .propertyClass .., _, _, hplain, _, h, h'
  | .shorthandClass .., _, _, hplain, _, h, h' | .bracketed .., _, _, hplain, _, h, h' => by
    obtain ⟨hsame,hends,hends'⟩ := ignoresCase_leaf h h' hplain trivial
    exact hsame.trimmed hends hends'
  | .repetition _ count greedy sub, r, r', hplain, hs, h, h' => by
    obtain ⟨q,hq,hr⟩ := repeated_of_toExpr hplain.2 h
    obtain ⟨q',hq',hr'⟩ := repeated_of_toExpr hplain.2 h'
    rw [hr, hr']
    refine (ignoresCase_toExpr hplain.2 hq hq').trimmed_repeated hplain.1.1.1 ?_
    rcases hs with ⟨hgreedy,hone⟩ | hzero | hs
    · exact Or.inl ⟨by rw [hgreedy]; rfl,hone⟩
    · exact Or.inr (Or.inl hzero)
    · exact Or.inr (Or.inr (trimmed_toExpr hplain.2 hs hq hq'))
  | .group _ kind sub, r, r', hplain, hs, h, h' => by
    obtain ⟨q,hq,hr⟩ := enclosed_of_toExpr hplain.1 h
    obtain ⟨q',hq',hr'⟩ := enclosed_of_toExpr hplain.1 h'
    rw [hr, hr', kind.trimmed_enclose, kind.trimmed_enclose]
    exact trimmed_toExpr hplain.2 hs hq hq'
  | .alternation _ items, r, r', hplain, hs, h, h' => by
    obtain ⟨q,hq,rfl⟩ := toExpr_alternation h
    obtain ⟨q',hq',rfl⟩ := toExpr_alternation h'
    have hsame := ignoresCase_toExprs hplain.2 hq hq'
    rcases hs with ⟨hitems,hshares⟩ | hends
    · exact Expr.IgnoresCase.trimmed_choice hsame (trimmed_toExprs hplain.2 hitems hq hq')
        (hshares true q hq) (hshares false q' hq')
    · exact (Expr.IgnoresCase.choice hsame).trimmed (hends true q hq) (hends false q' hq')
  | .concat _ items, r, r', hplain, hs, h, h' => by
    obtain ⟨q,hq,rfl⟩ := toExpr_concat h
    obtain ⟨q',hq',rfl⟩ := toExpr_concat h'
    have hsame := ignoresCase_toExprs hplain.2 hq hq'
    rw [Expr.trimmed_sequence (Expr.tidy_left hsame), Expr.trimmed_sequence (Expr.tidy_right hsame)]
    exact trimmedProduct_toExprs hplain.2 hs hq hq'

theorem trimmed_toExprs : ∀ {items : List Ast} {r r' : List Expr × Flags},
    EachOf Ast.IsPlain items → AllSettled settings items →
    toExprs (.start settings true) items = .ok r → toExprs (.start settings false) items = .ok r' →
    List.Forall₂ (fun e f => e.trimmed = ignoringCase f.trimmed) r.1 r'.1
  | [], r, r', _, _, h, h' => by
    cases h
    cases h'
    exact .nil
  | ast :: rest, r, r', hplain, hs, h, h' => by
    obtain ⟨q,p,hq,hp,hr⟩ := cons_of_toExprs hplain.1 h
    obtain ⟨q',p',hq',hp',hr'⟩ := cons_of_toExprs hplain.1 h'
    rw [hr, hr']
    exact .cons (trimmed_toExpr hplain.1 hs.1 hq hq') (trimmed_toExprs hplain.2 hs.2 hp hp')

theorem trimmedProduct_toExprs : ∀ {items : List Ast} {r r' : List Expr × Flags},
    EachOf Ast.IsPlain items → LastSettled settings items →
    toExprs (.start settings true) items = .ok r → toExprs (.start settings false) items = .ok r' →
    Expr.trimmedProduct r.1 = ignoringCase (Expr.trimmedProduct r'.1)
  | [], r, r', _, _, h, h' => by
    cases h
    cases h'
    exact ignoringCase_one.symm
  | ast :: rest, r, r', hplain, hs, h, h' => by
    obtain ⟨q,p,hq,hp,hr⟩ := cons_of_toExprs hplain.1 h
    obtain ⟨q',p',hq',hp',hr'⟩ := cons_of_toExprs hplain.1 h'
    have hvanish := Expr.all_eq_all (ignoresCase_toExprs hplain.2 hp hp') Expr.IgnoresCase.vanishes
    rw [hr, hr', Expr.trimmedProduct, Expr.trimmedProduct, hvanish]
    split
    · rename_i hall
      -- Nothing is left behind the item, so it is the last one in both readings.
      have hlast : ∀ caseInsensitive r,
          toExprs (.start settings caseInsensitive) rest = .ok r →
            r.1.all Expr.vanishes = true := by
        intro caseInsensitive r hr
        cases caseInsensitive with
        | true =>
          cases hp.symm.trans hr
          exact hvanish.trans hall
        | false =>
          cases hp'.symm.trans hr
          exact hall
      exact trimmed_toExpr hplain.1 (hs.2 hlast) hq hq'
    · rw [(ignoresCase_toExpr hplain.1 hq hq').language,
        trimmedProduct_toExprs hplain.2 hs.1 hp hp', ignoringCase_mul]

end

end Patterns

end Pattern

section Pipelines
variable {settings : PatternSettings} {pattern : String} {caseInsensitive : Bool} {t t' : Tree}

theorem Expr.exists_of_ofPattern {e : Expr} (h : ofPattern settings caseInsensitive pattern = .ok e) :
    ∃ ast r, Pattern.parse (settings.text pattern) = .ok ast ∧
      ast.toExpr (.start settings caseInsensitive) = .ok r ∧ r.1 = e := by
  obtain ⟨ast,hast,h⟩ := bind_eq_ok.mp h
  obtain ⟨r,hr,he⟩ := bind_eq_ok.mp h
  exact ⟨ast,r,hast,hr,Except.ok.inj he⟩

/-- The tree of a pattern stands for what is left of its expression after trimming. -/
theorem Tree.language_ofPattern (h : ofPattern settings caseInsensitive pattern = .ok t) :
    ∃ e, Expr.ofPattern settings caseInsensitive pattern = .ok e ∧ t.WellFormed ∧
      ∀ s : BuilderSettings, s.encoding = .utf8 →
        t.language { s with caseSensitive := true } = e.trimmed ∧
        t.language { s with caseSensitive := false } = ignoringCase e.trimmed := by
  obtain ⟨e,d,hlowers⟩ := Lowers.of_tree h
  refine ⟨e,hlowers.ofPattern,hlowers.wellFormedTree,fun s hutf => ?_⟩
  have hdenotes := Expr.denotes_term (s := { s with caseSensitive := true }) rfl hutf
    hlowers.wellFormed hlowers.noObstacle
  rw [hlowers.term] at hdenotes
  rw [hlowers.spells.language_eq, hlowers.spells.language_eq, Term.language_caseless]
  cases hdenotes with
  | term hlanguage _ =>
    rw [hlanguage]
    exact ⟨rfl,rfl⟩

/-- A pattern that is read without case and built with case accepts what it accepts when it is read
with case and built without. Besides the classes there is one more way to go wrong, which
`hsettled` leaves out: shared leading items, as in `ab*?|Ab*?`, hide different reluctant ends from
trimming in the two readings. -/
theorem Builder.walk_caseInsensitive_iff {ast : Pattern.Ast} {b b' c c' : Builder}
    (hparse : Pattern.parse (settings.text pattern) = .ok ast)
    (hflags : ast.Each Pattern.Ast.SetsNoFlags) (hsafe : ast.Each Pattern.Ast.IsCaseSafe)
    (hsettled : ast.IsSettled settings)
    (ht : Tree.ofPattern settings true pattern = .ok t)
    (ht' : Tree.ofPattern settings false pattern = .ok t')
    (hcase : b.settings.caseSensitive = true) (hutf : b.settings.encoding = .utf8)
    (hcase' : c.settings.caseSensitive = false) (hutf' : c.settings.encoding = .utf8)
    (hbuild : b.build t = (.ok (),b')) (hbuild' : c.build t' = (.ok (),c')) (w : List UInt8) :
    (∃ v, b'.graph.Walk 0 w v ∧ b'.graph.isMatch v = true) ↔
      ∃ v, c'.graph.Walk 0 w v ∧ c'.graph.isMatch v = true := by
  have hplain : ast.Each Pattern.Ast.IsPlain :=
    ((Pattern.wellFormed_parse hparse).and hflags).and hsafe
  obtain ⟨e,he,hwell,hlanguage⟩ := Tree.language_ofPattern ht
  obtain ⟨e',he',hwell',hlanguage'⟩ := Tree.language_ofPattern ht'
  obtain ⟨a,r,ha,hr,rfl⟩ := Expr.exists_of_ofPattern he
  obtain ⟨a',r',ha',hr',rfl⟩ := Expr.exists_of_ofPattern he'
  cases hparse.symm.trans ha
  cases hparse.symm.trans ha'
  have hsame := Pattern.trimmed_toExpr hplain hsettled hr hr'
  have hb : b.settings = { b.settings with caseSensitive := true } := by rw [← hcase]
  have hc : c.settings = { c.settings with caseSensitive := false } := by rw [← hcase']
  rw [← Graph.mem_languageFrom, ← Graph.mem_languageFrom, languageFrom_build hwell hbuild,
    languageFrom_build hwell' hbuild', hb, hc, (hlanguage _ hutf).1, (hlanguage' _ hutf').2, hsame]

/-- The alternatives of `[^kK]b|é+?`. -/
def Pattern.otherLetters : List Ast := [
  .concat ⟨⟨0,1,1⟩,⟨6,1,7⟩⟩ [
    .bracketed ⟨⟨0,1,1⟩,⟨5,1,6⟩⟩ true (.item (.union ⟨⟨2,1,3⟩,⟨4,1,5⟩⟩ [
      .literal { span := ⟨⟨2,1,3⟩,⟨3,1,4⟩⟩, char := 'k' },
      .literal { span := ⟨⟨3,1,4⟩,⟨4,1,5⟩⟩, char := 'K' }])),
    .literal { span := ⟨⟨5,1,6⟩,⟨6,1,7⟩⟩, char := 'b' }],
  .repetition ⟨⟨7,1,8⟩,⟨11,1,11⟩⟩ ⟨1,none⟩ false
    (.literal { span := ⟨⟨7,1,8⟩,⟨9,1,9⟩⟩, char := 'é' })]

theorem Builder.walk_caseInsensitive_iff_otherLetters :
    ∃ t t' b' c', Tree.ofPattern {} true "[^kK]b|é+?" = .ok t ∧
      Tree.ofPattern {} false "[^kK]b|é+?" = .ok t' ∧
      (ofSettings { encoding := .utf8 }).build t = (.ok (),b') ∧
      (ofSettings { encoding := .utf8, caseSensitive := false }).build t' = (.ok (),c') ∧
      ∀ w, (∃ v, b'.graph.Walk 0 w v ∧ b'.graph.isMatch v = true) ↔
        ∃ v, c'.graph.Walk 0 w v ∧ c'.graph.isMatch v = true := by
  let ast : Pattern.Ast := .alternation ⟨⟨0,1,1⟩,⟨11,1,11⟩⟩ Pattern.otherLetters
  have hparse : Pattern.parse (PatternSettings.text {} "[^kK]b|é+?") = .ok ast := by with_unfolding_all rfl
  have hflags : ast.Each Pattern.Ast.SetsNoFlags :=
    ⟨trivial,⟨trivial,trivial,trivial,trivial⟩,⟨trivial,trivial⟩,trivial⟩
  have hsafe : ast.Each Pattern.Ast.IsCaseSafe := by
    have hclosed : ∀ s : ByteClass, Pattern.unionOfMembers Pattern.Alphabet.bytes false [
        .literal { span := ⟨⟨2,1,3⟩,⟨3,1,4⟩⟩, char := 'k' },
        .literal { span := ⟨⟨3,1,4⟩,⟨4,1,5⟩⟩, char := 'K' }] = .ok s → s.IsCaseClosed := by
      intro s hs
      cases hs
      exact Pattern.isCaseClosed_of_le (by decide +kernel)
    exact ⟨trivial,⟨trivial,Or.inr ⟨⟨trivial,trivial,trivial⟩,fun _ => hclosed⟩,trivial,trivial⟩,
      ⟨trivial,trivial⟩,trivial⟩
  have hsettled : ast.IsSettled {} := by
    refine Or.inl ⟨⟨⟨⟨trivial,fun _ => trivial⟩,fun _ => trivial⟩,Or.inr (Or.inr trivial),trivial⟩,
      fun caseInsensitive r hr => ?_⟩
    have hshared : (Pattern.toExprs (.start {} caseInsensitive) Pattern.otherLetters).toOption.map
        (fun r => Expr.sharesReluctantEnd r.1) = some false := by
      cases caseInsensitive <;> decide +kernel
    rw [hr] at hshared
    exact Option.some.inj hshared
  have hok : (Tree.ofPattern {} true "[^kK]b|é+?").toOption.map (fun t =>
      ((ofSettings { encoding := .utf8 }).build t).1) = some (.ok ()) := by decide +kernel
  have hok' : (Tree.ofPattern {} false "[^kK]b|é+?").toOption.map (fun t =>
      ((ofSettings { encoding := .utf8, caseSensitive := false }).build t).1) =
        some (.ok ()) := by decide +kernel
  obtain ⟨t,ht,hbuild⟩ := Option.map_eq_some_iff.mp hok
  obtain ⟨t',ht',hbuild'⟩ := Option.map_eq_some_iff.mp hok'
  rw [toOption_eq_some] at ht ht'
  exact ⟨t,t',_,_,ht,ht',Prod.ext hbuild rfl,Prod.ext hbuild' rfl,walk_caseInsensitive_iff hparse
    hflags hsafe hsettled ht ht' rfl rfl rfl rfl (Prod.ext hbuild rfl) (Prod.ext hbuild' rfl)⟩

/-- `[^a]`. -/
def Pattern.exceptLetter : Ast :=
  .bracketed ⟨⟨0,1,1⟩,⟨4,1,5⟩⟩ true
    (.item (.literal { span := ⟨⟨2,1,3⟩,⟨3,1,4⟩⟩, char := 'a' }))

/-- The tree of a class of bytes. -/
def Tree.ofRanges (ranges : List (UInt8 × UInt8)) : Tree where
  nodes := #[{ kind := .charClass (.ofRanges ranges) },.regexp 0]
  root := some 1

/-- A letter is found in its other case, which the class is the complement of. -/
theorem Builder.walk_caseInsensitive_exceptLetter :
    ∃ t t' b' c', Pattern.parse (PatternSettings.text {} "[^a]") = .ok Pattern.exceptLetter ∧
      Pattern.exceptLetter.Each Pattern.Ast.SetsNoFlags ∧
      Tree.ofPattern {} true "[^a]" = .ok t ∧ Tree.ofPattern {} false "[^a]" = .ok t' ∧
      (ofSettings { encoding := .utf8 }).build t = (.ok (),b') ∧
      (ofSettings { encoding := .utf8, caseSensitive := false }).build t' = (.ok (),c') ∧
      (¬ ∃ v, b'.graph.Walk 0 [0x61] v ∧ b'.graph.isMatch v = true) ∧
      ∃ v, c'.graph.Walk 0 [0x61] v ∧ c'.graph.isMatch v = true := by
  have hparse : Pattern.parse (PatternSettings.text {} "[^a]") = .ok Pattern.exceptLetter := by
    with_unfolding_all rfl
  let t := Tree.ofRanges [(0x00,0x40),(0x42,0x60),(0x62,0xFF)]
  let t' := Tree.ofRanges [(0x00,0x60),(0x62,0xFF)]
  have ht : Tree.ofPattern {} true "[^a]" = .ok t := by decide +kernel
  have ht' : Tree.ofPattern {} false "[^a]" = .ok t' := by decide +kernel
  have hwell : t.WellFormed ∧ t'.WellFormed :=
    ⟨.of_forall rfl rfl (by decide),.of_forall rfl rfl (by decide)⟩
  have hspells : ∀ ranges, (Tree.ofRanges ranges).Spells
      (.leaf (.charClass (.ofRanges ranges))) := fun ranges => ⟨1,0,rfl,rfl,.leaf rfl⟩
  let b := ofSettings { encoding := .utf8 }
  let c := ofSettings { encoding := .utf8, caseSensitive := false }
  have hok : (b.build t).1 = .ok () := by decide +kernel
  have hok' : (c.build t').1 = .ok () := by decide +kernel
  have hbuild : b.build t = (.ok (),(b.build t).2) := Prod.ext hok rfl
  have hbuild' : c.build t' = (.ok (),(c.build t').2) := Prod.ext hok' rfl
  refine ⟨t,t',_,_,hparse,trivial,ht,ht',hbuild,hbuild',?_,?_⟩
  · rw [← Graph.mem_languageFrom, languageFrom_build hwell.1 hbuild, (hspells _).language_eq,
      Term.language, Leaf.language_charClass rfl]
    rintro ⟨x,hx,hw⟩
    obtain rfl : 0x61 = x := by simpa using hw
    revert hx
    decide
  · rw [← Graph.mem_languageFrom, languageFrom_build hwell.2 hbuild', (hspells _).language_eq]
    exact ⟨_,rfl,.cons (by decide) .nil⟩

end Pipelines

end ByteAutomata

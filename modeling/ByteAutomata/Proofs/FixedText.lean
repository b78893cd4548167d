import ByteAutomata.Proofs.Builder.CaseVariants
import ByteAutomata.Proofs.Characters

/-! # Plain text

A plain text is quoted before it is read. Whatever its characters mean otherwise, each of them
becomes a literal, and its automaton finds the text and nothing else. -/
namespace ByteAutomata

namespace Expr
variable {lists : List (List UInt8)}

theorem joinLiterals_literals (h : lists ≠ []) :
    joinLiterals (lists.map literal) = [literal lists.flatten] := by
  induction lists with
  | nil => exact absurd rfl h
  | cons bytes lists ih =>
    rw [List.map_cons, joinLiterals]
    cases lists with
    | nil => simp [joinLiterals]
    | cons bytes' lists =>
      rw [ih (List.cons_ne_nil bytes' lists)]
      rfl

/-- Literals in a row are one literal. -/
theorem sequence_literals (h : lists ≠ []) :
    sequence (lists.map literal) = literal lists.flatten := by
  have hitems : (lists.map literal).flatMap concatItems = lists.map literal := by
    rw [List.flatMap_map]
    exact List.flatMap_pure_eq_map literal lists
  rw [sequence, hitems, joinLiterals_literals h]

end Expr

namespace Pattern
variable {settings : PatternSettings} {flags : Flags}

/-- The literals of a text are one literal of all its bytes. -/
theorem toExpr_concatenationOf (hcase : flags.caseInsensitive = false)
    (hunicode : flags.unicode = false) {lits : List Literal}
    (hbytes : ∀ lit ∈ lits, lit.isByte = false) (hne : lits ≠ []) (span : Span) :
    (concatenationOf span (lits.map .literal)).toExpr flags =
      .ok (.literal (lits.flatMap fun lit => Utf8.encode lit.char.toNat),flags) := by
  match lits with
  | [] => exact absurd rfl hne
  | [lit] =>
    change (Ast.literal lit).toExpr flags = _
    rw [Ast.toExpr, literal_plain hcase hunicode (hbytes lit List.mem_cons_self)]
    simp
  | first :: second :: rest =>
    have hlists : ((first :: second :: rest).map fun lit => Utf8.encode lit.char.toNat) ≠ [] := by
      simp
    have hsequence := Expr.sequence_literals hlists
    rw [List.map_map, ← List.flatMap_def] at hsequence
    change (Ast.concat span ((first :: second :: rest).map .literal)).toExpr flags = _
    rw [Ast.toExpr, toExprs_literals hcase hunicode hbytes, ok_bind, ← hsequence]
    rfl

theorem ofPattern_fixed (hfixed : settings.fixedString = true) {text : String} (hne : text ≠ "") :
    Expr.ofPattern settings false text =
      .ok (.literal (text.toList.flatMap fun c => Utf8.encode c.toNat)) := by
  obtain ⟨lits,hchars,hbytes,span,hparse⟩ := parse_quote text.toList
  have hlits : lits ≠ [] := by
    rintro rfl
    exact hne (String.toList_eq_nil_iff.mp hchars.symm)
  rw [Expr.ofPattern, settings.text_fixed hfixed, hparse, ok_bind,
    toExpr_concatenationOf rfl rfl hbytes hlits, ← hchars, List.flatMap_map]
  rfl

theorem ofPattern_fixed_empty (hfixed : settings.fixedString = true) :
    Expr.ofPattern settings false "" = .ok .empty := by
  obtain ⟨lits,hchars,-,span,hparse⟩ := parse_quote "".toList
  obtain rfl := List.map_eq_nil_iff.mp hchars
  rw [Expr.ofPattern, settings.text_fixed hfixed, hparse, ok_bind]
  rfl

end Pattern

namespace Tree
variable {t : Tree} {ns : List Nat}

/-- The node that joins the first `count + 1` of `size` literals. -/
def joint (size count : Nat) : NodeId := if count = 0 then 0 else size + count - 1

/-- The concatenations that join literals from the left. -/
def joints (size : Nat) : List Node :=
  (List.range (size - 1)).map fun i => .concatenation (joint size i) (i + 1)

/-- One literal for each code point, in order, then the concatenations, then the root. -/
def ofText (ns : List Nat) : Tree where
  nodes := (ns.map (fun n => { kind := .literal n : Node }) ++ joints ns.length ++
    [Node.regexp (joint ns.length (ns.length - 1))]).toArray
  root := some (2 * ns.length - 1)

example : ofText [0x61,0x62,0x63] =
    { nodes := #[{ kind := .literal 0x61 },{ kind := .literal 0x62 },{ kind := .literal 0x63 },
        .concatenation 0 1,.concatenation 3 2,.regexp 4]
      root := some 5 } := rfl

theorem foldl_push (t : Tree) (kinds : List NodeKind) :
    kinds.foldl (fun t kind => t.push { kind }) t =
      { t with nodes := t.nodes ++ (kinds.map fun kind => { kind : Node }).toArray } := by
  induction kinds generalizing t with
  | nil => simp
  | cons kind kinds ih =>
    rw [List.foldl_cons, ih]
    simp [push]

theorem foldl_concatenation (t : Tree) (count : Nat) :
    (List.range' 1 count).foldl (fun (r : NodeId × Tree) right =>
        r.2.add (.concatenation r.1 right)) (0,t) =
      (joint t.size count,{ t with nodes := t.nodes ++
        ((List.range count).map fun i => Node.concatenation (joint t.size i) (i + 1)).toArray }) := by
  induction count with
  | zero => simp [joint]
  | succ count ih =>
    rw [List.range'_concat, List.foldl_append, ih, List.range_succ, List.map_append]
    simp [add, push, size, joint, Nat.add_comm]

theorem addLeaves_empty (kinds : List NodeKind) : empty.addLeaves kinds =
    ((List.range' 0 kinds.length).map some,
      ⟨(kinds.map fun kind => { kind : Node }).toArray,none⟩) := by
  rw [addLeaves, foldl_push]
  simp [empty, size]

/-- The tree of a literal that is made of whole characters. -/
theorem ofExpr_literal {bytes : List UInt8} (hpieces : Utf8.pieces bytes = ns.map .scalar)
    (hne : ns ≠ []) : ofExpr (.literal bytes) = .ok (ofText ns) := by
  obtain ⟨n,ms,rfl⟩ := List.exists_cons_of_ne_nil hne
  have hkinds : (Utf8.pieces bytes).map pieceKind = (n :: ms).map .literal := by
    rw [hpieces, List.map_map]
    rfl
  have hids : ((List.range' 0 (ms.length + 1)).map some).filterMap id =
      0 :: List.range' 1 ms.length := by
    rw [List.filterMap_map]
    exact List.filterMap_some
  rw [ofExpr, addExpr, addLiteral, hkinds, addLeaves_empty]
  simp only [addConcatenation, List.length_map, List.length_cons, hids, chain]
  rw [foldl_concatenation]
  have hroot : ms.length + ms.length + 1 = 2 * (ms.length + 1) - 1 := by omega
  refine congrArg Except.ok ?_
  simp [ofText, joints, size, add, push, withRoot, Function.comp_def, hroot]

end Tree

section Meaning
variable {s : BuilderSettings} {e : Term} {ns : List Nat} {cs : List Char}

theorem Encoding.encodeAll_utf8 (cs : List Char) :
    Encoding.utf8.encodeAll (cs.map Char.toNat) = some (cs.flatMap fun c => Utf8.encode c.toNat) := by
  induction cs with
  | nil => rfl
  | cons c cs ih =>
    have hscalar := Utf8.isScalar_toNat c
    simp [encodeAll, encode, hscalar, ih]

theorem Encoding.mem_prod_encode (hcase : s.caseSensitive = true) (ns : List Nat)
    (w : List UInt8) : w ∈ (ns.map fun n => (Leaf.literal n).language s).prod ↔
      s.encoding.encodeAll ns = some w := by
  induction ns generalizing w with
  | nil => simp [encodeAll, Language.mem_one, eq_comm]
  | cons n ns ih =>
    rw [List.map_cons, List.prod_cons, Language.mem_mul]
    simp only [Leaf.mem_language_encoded hcase, ih]
    simp [encodeAll, Option.bind_eq_some_iff]

/-- With case, a text stands for its bytes. -/
theorem Term.SpellsText.mem_language (h : e.SpellsText ns) (hcase : s.caseSensitive = true)
    (w : List UInt8) : w ∈ e.language s ↔ s.encoding.encodeAll ns = some w := by
  rw [h.language_eq, Encoding.mem_prod_encode hcase]

theorem Term.SpellsText.foldl (h : e.SpellsText ns) (ms : List Nat) :
    ((ms.map fun n => Term.leaf (.literal n)).foldl Term.concatenation e).SpellsText (ns ++ ms) := by
  induction ms generalizing e ns with
  | nil => rwa [List.append_nil]
  | cons m ms ih =>
    have hnext := ih (h.concatenation (.literal m))
    rwa [List.append_assoc] at hnext

/-- The literals of a text, joined from the left. -/
def Term.ofText (ns : List Nat) : Option Term :=
  chain .concatenation (ns.map fun n => .leaf (.literal n))

theorem Term.spellsText_ofText (h : ofText ns = some e) : e.SpellsText ns := by
  cases ns with
  | nil => cases h
  | cons n ns =>
    obtain rfl := Option.some.inj h
    exact (SpellsText.literal n).foldl ns

theorem Expr.term_literal {bytes : List UInt8} (hpieces : Utf8.pieces bytes = ns.map .scalar) :
    (literal bytes).term? = Term.ofText ns := by
  have hitems : ((ns.map Utf8.Piece.scalar).map fun p => some (Term.leaf (.ofPiece p))) =
      (ns.map fun n => Term.leaf (.literal n)).map some := by
    rw [List.map_map, List.map_map]
    rfl
  have hreduce : ((ns.map fun n => Term.leaf (.literal n)).map some).reduceOption =
      ns.map fun n => Term.leaf (.literal n) := by
    rw [List.reduceOption, List.filterMap_map]
    exact List.filterMap_some
  rw [term?, hpieces, Term.concatenationOf, hitems, hreduce, Term.ofText]

end Meaning

section Compile
variable {settings : PatternSettings} {text : String}

/-- The code points of a text, in order. -/
def codePoints (text : String) : List Nat := text.toList.map Char.toNat

theorem codePoints_ne_nil (h : text ≠ "") : codePoints text ≠ [] := by
  intro hnil
  exact h (String.toList_eq_nil_iff.mp (List.map_eq_nil_iff.mp hnil))

theorem pieces_codePoints (text : String) :
    Utf8.pieces (text.toList.flatMap fun c => Utf8.encode c.toNat) =
      (codePoints text).map .scalar := by
  rw [Utf8.pieces_text, codePoints, List.map_map]
  rfl

theorem Tree.ofPattern_fixed_empty (hfixed : settings.fixedString = true) :
    Tree.ofPattern settings false "" = .error .emptyPattern := by
  rw [Tree.ofPattern, Pattern.ofPattern_fixed_empty hfixed]
  rfl

/-- A plain text stands for its literals, joined from the left. -/
theorem exists_lowers_fixed (hfixed : settings.fixedString = true) (hne : text ≠ "") :
    ∃ e d, Lowers settings false text e (.ofText (codePoints text)) d ∧
      Term.ofText (codePoints text) = some d ∧ [] ∉ e.trimLazyEnd.language := by
  have hcodes := codePoints_ne_nil hne
  have hpieces := pieces_codePoints text
  obtain ⟨n,ns,hns⟩ := List.exists_cons_of_ne_nil hcodes
  obtain ⟨d,hd⟩ : ∃ d, Term.ofText (codePoints text) = some d := by
    rw [hns]
    exact ⟨_,rfl⟩
  obtain ⟨t,hlowers⟩ := Lowers.of_term (Pattern.ofPattern_fixed hfixed hne) rfl
    ((Expr.term_literal hpieces).trans hd)
  cases hlowers.ofExpr.symm.trans (Tree.ofExpr_literal hpieces hcodes)
  refine ⟨_,d,hlowers,hd,fun hnil => ?_⟩
  have hbytes := Set.mem_singleton_iff.mp hnil
  rw [← hbytes, Utf8.pieces] at hpieces
  exact hcodes (List.map_eq_nil_iff.mp hpieces.symm)

/-- A plain text that the encoding has is compiled, and nothing but its bytes is found. -/
theorem compile_fixed (settings : Settings) (hfixed : settings.pattern.fixedString = true)
    (hcase : settings.builder.caseSensitive = true) (hroom : settings.builder.HasRoom)
    (hne : text ≠ "") (label : Nat)
    (henc : ∀ n ∈ codePoints text, settings.builder.encoding.encode n ≠ none) :
    ∃ g, compile text label settings = .ok g ∧ ∀ w, w ∈ g.languageFrom 0 ↔
      settings.builder.encoding.encodeAll (codePoints text) = some w := by
  obtain ⟨e,d,hlowers,hd,hnil⟩ := exists_lowers_fixed hfixed hne
  have htext := Term.spellsText_ofText hd
  obtain ⟨g,hg,hlanguage⟩ := exists_compile label hroom hlowers (htext.encodable henc) hnil
  refine ⟨g,hg,fun w => ?_⟩
  rw [hlanguage, hlowers.spells.language_eq]
  exact htext.mem_language hcase w

end Compile
end ByteAutomata

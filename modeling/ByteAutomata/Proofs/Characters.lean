import ByteAutomata.Proofs.Compile
import ByteAutomata.Proofs.Encoding
import ByteAutomata.Proofs.Pattern.Quoted

/-! # Alternatives of one character

Alternatives of one character each are merged into a class. Its characters become literals again,
which stand for what the encoding writes, unless all of them are in ASCII: then they become bytes,
and the encoding is not asked. -/
namespace ByteAutomata

/-- The characters of a list as a class. -/
def CharClass.ofChars (cs : List Char) : CharClass := .ofRanges (cs.map fun c => (c.toNat,c.toNat))

section Classes
variable {cs : List Char} {c : Char} {n : Nat}

theorem CharClass.contains_ofChars :
    (ofChars cs).contains n = true ↔ ∃ c ∈ cs, c.toNat = n := by
  have hlast : ∀ c : Char, c.toNat ≤ Points.chars.last := fun c => by
    have hscalar := Utf8.isScalar_toNat c
    change c.toNat ≤ 0x10FFFF
    unfold Utf8.IsScalar at hscalar
    omega
  rw [ofChars, Intervals.contains_ofRanges]
  constructor
  · rintro ⟨r,hr,-,hlo,hhi⟩
    obtain ⟨c,hc,rfl⟩ := List.mem_map.mp hr
    exact ⟨c,hc,Nat.le_antisymm hlo hhi⟩
  · rintro ⟨c,hc,rfl⟩
    exact ⟨_,List.mem_map_of_mem hc,hlast c,le_rfl,le_rfl⟩

theorem CharClass.isEmpty_ofChars (hne : cs ≠ []) : (ofChars cs).isEmpty = false := by
  obtain ⟨c,rest,rfl⟩ := List.exists_cons_of_ne_nil hne
  refine Bool.eq_false_iff.mpr fun hempty => ?_
  have hmem : (ofChars (c :: rest)).contains c.toNat = true :=
    contains_ofChars.mpr ⟨c,List.mem_cons_self,rfl⟩
  rw [Intervals.isEmpty_iff_contains.mp hempty] at hmem
  cases hmem

theorem CharClass.single_ofChars (c : Char) : (ofChars [c]).single? = some c.toNat :=
  Intervals.single?_eq_some_iff.mpr fun m => contains_ofChars.trans (by simp [eq_comm])

namespace Expr

theorem ofCharClass_single (c : Char) :
    ofCharClass (.ofChars [c]) = .literal (Utf8.encode c.toNat) := by
  have hempty := CharClass.isEmpty_ofChars (List.cons_ne_nil c [])
  rw [ofCharClass, hempty, CharClass.single_ofChars]
  rfl

theorem mapM_charLiteral (cs : List Char) :
    (cs.map fun c => literal (Utf8.encode c.toNat)).mapM charLiteral? = some (cs.map Char.toNat) := by
  induction cs with
  | nil => rfl
  | cons c cs ih => simp [charLiteral?, Utf8.single_encode (Utf8.isScalar_toNat c), ih]

/-- Two or more literals of one character each are merged into the class of the characters. -/
theorem choice_characters (hcs : 2 ≤ cs.length) :
    choice (cs.map fun c => .literal (Utf8.encode c.toNat)) = ofCharClass (.ofChars cs) := by
  have hflat : (cs.map fun c => literal (Utf8.encode c.toNat)).flatMap alternationItems =
      cs.map fun c => literal (Utf8.encode c.toNat) := by
    rw [List.flatMap_map]
    exact List.flatMap_pure_eq_map _ cs
  have hmerged : mergedClass? (cs.map fun c => literal (Utf8.encode c.toNat)) =
      some (ofCharClass (.ofChars cs)) := by
    rw [mergedClass?, mapM_charLiteral]
    simp [CharClass.ofChars, Function.comp_def]
  rw [← List.length_map (f := fun c => literal (Utf8.encode c.toNat)), ← hflat] at hcs
  rw [choice]
  split
  · rename_i heq
    simp [heq] at hcs
  · rename_i heq
    simp [heq] at hcs
  · rename_i heq
    rw [← heq, hflat, hmerged]

end Expr

namespace Pattern
variable {flags : Flags} {lits : List Literal} {settings : PatternSettings}

theorem literal_plain (hcase : flags.caseInsensitive = false) (hunicode : flags.unicode = false)
    {lit : Literal} (hbyte : lit.isByte = false) :
    flags.literal lit = .literal (Utf8.encode lit.char.toNat) := by
  simp [Flags.literal, hcase, hunicode, hbyte]

theorem toExprs_literals (hcase : flags.caseInsensitive = false)
    (hunicode : flags.unicode = false) (hbytes : ∀ lit ∈ lits, lit.isByte = false) :
    toExprs flags (lits.map .literal) =
      .ok (lits.map fun lit => .literal (Utf8.encode lit.char.toNat),flags) := by
  induction lits with
  | nil => rfl
  | cons lit lits ih =>
    obtain ⟨hlit,hlits⟩ := List.forall_mem_cons.mp hbytes
    rw [List.map_cons, toExprs, Ast.toExpr, literal_plain hcase hunicode hlit, ok_bind]
    dsimp only
    rw [ih hlits]
    rfl

/-- Alternatives of one character each amount to the class of the characters. -/
theorem ofPattern_quotedAlternatives (hfixed : settings.fixedString = false) (hne : cs ≠ []) :
    Expr.ofPattern settings false (String.ofList (quotedAlternatives cs)) =
      .ok (.ofCharClass (.ofChars cs)) := by
  obtain ⟨lits,rfl,hbytes,span,hparse⟩ := parse_quotedAlternatives hne
  rw [Expr.ofPattern, settings.text_plain hfixed, String.toList_ofList, hparse, ok_bind]
  cases lits with
  | nil => exact absurd rfl hne
  | cons lit rest =>
    cases rest with
    | nil =>
      rw [List.map_singleton, alternativesOf, Ast.toExpr,
        literal_plain rfl rfl (hbytes lit List.mem_cons_self), List.map_singleton,
        Expr.ofCharClass_single]
      rfl
    | cons next more =>
      have hchars : 2 ≤ ((lit :: next :: more).map (·.char)).length := by simp
      have hchoice := Expr.choice_characters hchars
      rw [List.map_map] at hchoice
      change (Ast.alternation span ((lit :: next :: more).map .literal)).toExpr _ >>= _ = _
      rw [Ast.toExpr, toExprs_literals rfl rfl hbytes, ok_bind, ← hchoice]
      rfl

end Pattern
end Classes

section Terms
variable {s : BuilderSettings} {cs : List Char} {d : Term}

/-- The characters are merged into a class of bytes: all of them are in ASCII, and not all are the
same one. -/
def Narrowed (cs : List Char) : Prop :=
  (∀ c ∈ cs, c.toNat < 0x80) ∧ ∃ c ∈ cs, ∃ c' ∈ cs, c ≠ c'

theorem CharClass.isBelow_ofChars :
    (ofChars cs).isBelow 0x80 = true ↔ ∀ c ∈ cs, c.toNat < 0x80 := by
  rw [Intervals.isBelow_iff]
  constructor
  · intro h c hc
    obtain ⟨r,hr,-,hhi⟩ := Intervals.contains_iff.mp (contains_ofChars.mpr ⟨c,hc,rfl⟩)
    exact hhi.trans_lt (h r hr)
  · intro h r hr
    have hend : (ofChars cs).contains r.2 = true :=
      Intervals.contains_iff.mpr ⟨r,hr,((ofChars cs).ascending.2 r hr).1,le_rfl⟩
    obtain ⟨c,hc,hcr⟩ := contains_ofChars.mp hend
    exact hcr ▸ h c hc

theorem CharClass.single_ofChars_eq_none (hne : cs ≠ []) :
    (ofChars cs).single? = none ↔ ∃ c ∈ cs, ∃ c' ∈ cs, c ≠ c' := by
  obtain ⟨c,rest,rfl⟩ := List.exists_cons_of_ne_nil hne
  rw [Option.eq_none_iff_forall_ne_some]
  constructor
  · intro h
    by_contra hsame
    push Not at hsame
    refine h c.toNat (Intervals.single?_eq_some_iff.mpr fun m => ?_)
    rw [contains_ofChars]
    constructor
    · rintro ⟨c',hc',rfl⟩
      rw [hsame c' hc' c List.mem_cons_self]
    · rintro rfl
      exact ⟨c,List.mem_cons_self,rfl⟩
  · rintro ⟨c₁,hc₁,c₂,hc₂,hdiffer⟩ n hn
    have hall := Intervals.single?_eq_some_iff.mp hn
    have h₁ := (hall _).mp (contains_ofChars.mpr ⟨c₁,hc₁,rfl⟩)
    have h₂ := (hall _).mp (contains_ofChars.mpr ⟨c₂,hc₂,rfl⟩)
    exact hdiffer (Char.toNat_inj.mp (h₁.trans h₂.symm))

/-- Alternatives that all take something have the strings of any of them. -/
theorem Term.language_alternationOf {es : List Term} (h : alternationOf (es.map some) = some d) :
    d.language s = (es.map (language s)).sum := by
  have hreduce : (es.map some).reduceOption = es := by
    rw [List.reduceOption, List.filterMap_map]
    exact List.filterMap_some
  have hall : (es.map some).any (·.isNone) = false := by simp
  rw [alternationOf, hreduce, hall] at h
  cases es with
  | nil => cases h
  | cons e es =>
    cases h
    exact Denotes.language_foldl_alternation e es

namespace Expr

theorem trimLazyEnd_ofCharClass (set : CharClass) :
    (ofCharClass set).trimLazyEnd = ofCharClass set := by
  unfold ofCharClass
  split
  · rfl
  · split <;> rfl

theorem term_character {n : Nat} (hn : Utf8.IsScalar n) :
    (literal (Utf8.encode n)).term? = some (.leaf (.literal n)) := by
  rw [term?, Utf8.pieces_encode hn]
  rfl

theorem ofCharClass_ofChars (hne : cs ≠ []) (h : (CharClass.ofChars cs).single? = none) :
    ofCharClass (.ofChars cs) = charClass (.ofChars cs) := by
  rw [ofCharClass, CharClass.isEmpty_ofChars hne, h]
  rfl

/-- Merged characters that are not narrowed to bytes go through the encoding. -/
theorem language_ofChars (hcase : s.caseSensitive = true) (hne : cs ≠ []) (hn : ¬ Narrowed cs)
    (h : (ofCharClass (.ofChars cs)).term? = some d) :
    d.language s = {w | ∃ c ∈ cs, s.encoding.encode c.toNat = some w} := by
  have hmem : ∀ n, (CharClass.ofChars cs).contains n = true ↔ ∃ c ∈ cs, c.toNat = n :=
    fun n => CharClass.contains_ofChars
  ext w
  cases hsingle : (CharClass.ofChars cs).single? with
  | some n =>
    have hall := Intervals.single?_eq_some_iff.mp hsingle
    obtain ⟨c,hc,rfl⟩ := (hmem n).mp ((hall n).mpr rfl)
    have hsame : ∀ c' ∈ cs, c'.toNat = c.toNat := fun c' hc' =>
      (hall _).mp ((hmem _).mpr ⟨c',hc',rfl⟩)
    have hliteral : ofCharClass (.ofChars cs) = literal (Utf8.encode c.toNat) := by
      rw [ofCharClass, CharClass.isEmpty_ofChars hne, hsingle]
      rfl
    rw [hliteral, term_character (Utf8.isScalar_toNat c)] at h
    obtain rfl := Option.some.inj h
    rw [Term.language, Leaf.mem_language_encoded hcase]
    constructor
    · exact fun hw => ⟨c,hc,hw⟩
    · rintro ⟨c',hc',hw⟩
      rwa [hsame c' hc'] at hw
  | none =>
    have hbelow : (CharClass.ofChars cs).isBelow 0x80 ≠ true := fun hbelow =>
      hn ⟨CharClass.isBelow_ofChars.mp hbelow,(CharClass.single_ofChars_eq_none hne).mp hsingle⟩
    have hwide : (CharClass.ofChars cs).toByteClass? = none := if_neg hbelow
    rw [ofCharClass_ofChars hne hsingle, term?, hwide] at h
    have hleaves : Term.alternationOf
        (((Tree.scalars (.ofChars cs)).map fun n => Term.leaf (.literal n)).map some) = some d := by
      rwa [List.map_map]
    rw [Term.language_alternationOf hleaves, mem_sum]
    simp only [List.map_map, List.mem_map, Tree.mem_scalars, hmem]
    constructor
    · rintro ⟨l,⟨n,⟨-,c,hc,rfl⟩,rfl⟩,hw⟩
      exact ⟨c,hc,(Leaf.mem_language_encoded hcase).mp hw⟩
    · rintro ⟨c,hc,hw⟩
      exact ⟨_,⟨c.toNat,⟨Utf8.isScalar_toNat c,c,hc,rfl⟩,rfl⟩,
        (Leaf.mem_language_encoded hcase).mpr hw⟩

theorem language_ofChars_narrowed (hcase : s.caseSensitive = true) (hn : Narrowed cs)
    (h : (ofCharClass (.ofChars cs)).term? = some d) :
    d.language s = {w | ∃ c ∈ cs, w = [UInt8.ofNat c.toNat]} := by
  obtain ⟨hascii,hdiffer⟩ := hn
  have hne : cs ≠ [] := by
    obtain ⟨c,hc,-⟩ := hdiffer
    exact List.ne_nil_of_mem hc
  have hsingle := (CharClass.single_ofChars_eq_none hne).mpr hdiffer
  have hbelow := CharClass.isBelow_ofChars.mpr hascii
  cases hbytes : (CharClass.ofChars cs).toByteClass? with
  | none =>
    rw [(CharClass.toByteClass_eq_none hbytes).1] at hbelow
    cases hbelow
  | some bytes =>
    rw [ofCharClass_ofChars hne hsingle, term?, hbytes] at h
    obtain rfl := Option.some.inj h
    have hmem := CharClass.contains_toByteClass hbytes
    rw [Term.language, ByteClass.language_leaf hcase]
    ext w
    constructor
    · rintro ⟨b,hb,rfl⟩
      rw [hmem] at hb
      obtain ⟨c,hc,hcb⟩ := CharClass.contains_ofChars.mp hb
      exact ⟨c,hc,by rw [hcb, UInt8.ofNat_toNat]⟩
    · rintro ⟨c,hc,rfl⟩
      refine ⟨UInt8.ofNat c.toNat,?_,rfl⟩
      rw [UInt8.toNat_ofNat_of_lt' ((hascii c hc).trans (by decide)), hmem]
      exact CharClass.contains_ofChars.mpr ⟨c,hc,rfl⟩

end Expr
end Terms

section Compile
variable {settings : Settings} {label : Nat} {cs : List Char} {g : Graph}

/-- The pattern whose alternatives are the characters. -/
def characterPattern (cs : List Char) : String := String.ofList (Pattern.quotedAlternatives cs)

/-- A character by itself is a literal, which is found just if the encoding has it. -/
theorem compile_character (hfixed : settings.pattern.fixedString = false)
    (hcase : settings.builder.caseSensitive = true) (hroom : settings.builder.HasRoom) {c : Char}
    (henc : settings.builder.encoding.encode c.toNat ≠ none) :
    ∃ g, compile (characterPattern [c]) label settings = .ok g ∧
      ∀ w, w ∈ g.languageFrom 0 ↔ settings.builder.encoding.encode c.toNat = some w := by
  have hexpr : Expr.ofPattern settings.pattern false (characterPattern [c]) =
      .ok (.literal (Utf8.encode c.toNat)) := by
    rw [← Expr.ofCharClass_single]
    exact Pattern.ofPattern_quotedAlternatives hfixed (List.cons_ne_nil c [])
  obtain ⟨t,hlowers⟩ :=
    Lowers.of_term hexpr rfl (Expr.term_character (Utf8.isScalar_toNat c))
  have hencodable : (Term.leaf (.literal c.toNat)).Encodable settings.builder := by
    rwa [Term.Encodable, Leaf.transitions, Ne, Option.map_eq_none_iff]
  have hnil : [] ∉ (Expr.literal (Utf8.encode c.toNat)).trimLazyEnd.language := fun hnil =>
    Utf8.encode_ne_nil _ (Set.mem_singleton_iff.mp hnil).symm
  obtain ⟨g,hg,hlanguage⟩ := exists_compile label hroom hlowers hencodable hnil
  refine ⟨g,hg,fun w => ?_⟩
  rw [hlanguage, hlowers.spells.language_eq, Term.language, Leaf.mem_language_encoded hcase]

theorem term_of_compile (hfixed : settings.pattern.fixedString = false) (hne : cs ≠ [])
    (h : compile (characterPattern cs) label settings = .ok g) :
    ∃ d, (Expr.ofCharClass (.ofChars cs)).term? = some d ∧
      g.languageFrom 0 = d.language settings.builder := by
  obtain ⟨-,e,t,d,hlowers,hlanguage⟩ := lowers_of_compile h
  cases (Pattern.ofPattern_quotedAlternatives hfixed hne).symm.trans hlowers.ofPattern
  have hterm := hlowers.term
  rw [Expr.trimLazyEnd_ofCharClass] at hterm
  exact ⟨d,hterm,hlanguage.trans (hlowers.spells.language_eq _)⟩

/-- Narrowed alternatives take one byte each, whatever the encoding. -/
theorem languageFrom_narrowed (hfixed : settings.pattern.fixedString = false)
    (hcase : settings.builder.caseSensitive = true) (hn : Narrowed cs)
    (h : compile (characterPattern cs) label settings = .ok g) :
    g.languageFrom 0 = {w | ∃ c ∈ cs, w = [UInt8.ofNat c.toNat]} := by
  obtain ⟨c,hc,-⟩ := hn.2
  obtain ⟨d,hd,hlanguage⟩ := term_of_compile hfixed (List.ne_nil_of_mem hc) h
  rw [hlanguage, Expr.language_ofChars_narrowed hcase hn hd]

theorem languageFrom_not_narrowed (hfixed : settings.pattern.fixedString = false)
    (hcase : settings.builder.caseSensitive = true) (hne : cs ≠ []) (hn : ¬ Narrowed cs)
    (h : compile (characterPattern cs) label settings = .ok g) :
    g.languageFrom 0 = {w | ∃ c ∈ cs, settings.builder.encoding.encode c.toNat = some w} := by
  obtain ⟨d,hd,hlanguage⟩ := term_of_compile hfixed hne h
  rw [hlanguage, Expr.language_ofChars hcase hne hn hd]

/-- Alternatives of one character each accept what the encoding writes for the characters, as each
of them does by itself, unless they are narrowed to bytes and the encoding is UTF-16. -/
theorem compile_characterPattern (hfixed : settings.pattern.fixedString = false)
    (hcase : settings.builder.caseSensitive = true) (hne : cs ≠ [])
    (henc : ∀ c ∈ cs, settings.builder.encoding.encode c.toNat ≠ none)
    (hunits : settings.builder.encoding = .utf16le ∨ settings.builder.encoding = .utf16be →
      ¬ Narrowed cs)
    (h : compile (characterPattern cs) label settings = .ok g) :
    (∀ w, w ∈ g.languageFrom 0 ↔
      ∃ c ∈ cs, settings.builder.encoding.encode c.toNat = some w) ∧
    ∀ c ∈ cs, ∃ g', compile (characterPattern [c]) label settings = .ok g' ∧
      ∀ w, w ∈ g'.languageFrom 0 ↔ settings.builder.encoding.encode c.toNat = some w := by
  have hroom := (lowers_of_compile h).1
  refine ⟨fun w => ?_,fun c hc => compile_character hfixed hcase hroom (henc c hc)⟩
  by_cases hn : Narrowed cs
  · obtain ⟨hle,hbe⟩ := not_or.mp (mt hunits (not_not_intro hn))
    rw [languageFrom_narrowed hfixed hcase hn h]
    refine exists_congr fun c => and_congr_right fun hc => ?_
    rw [Encoding.encode_of_not_utf16 hle hbe (hn.1 c hc), Option.some_inj, eq_comm]
  · rw [languageFrom_not_narrowed hfixed hcase hne hn h]
    rfl

theorem compile_characterPattern_accent :
    let settings : Settings := { builder := { encoding := .utf16le } }
    ∃ g, compile (characterPattern ['a','|','é']) 0 settings = .ok g ∧
      (∀ w, w ∈ g.languageFrom 0 ↔
        ∃ c ∈ ['a','|','é'], settings.builder.encoding.encode c.toNat = some w) ∧
      ∀ c ∈ ['a','|','é'], ∃ g', compile (characterPattern [c]) 0 settings = .ok g' ∧
        ∀ w, w ∈ g'.languageFrom 0 ↔ settings.builder.encoding.encode c.toNat = some w := by
  intro settings
  have hok : (compile (characterPattern ['a','|','é']) 0 settings).isOk = true := by
    decide +kernel
  have hencodes : ∀ c ∈ ['a','|','é'], settings.builder.encoding.encode c.toNat ≠ none := by
    refine List.forall_mem_cons.mpr ⟨by decide,List.forall_mem_cons.mpr ⟨by decide,?_⟩⟩
    exact List.forall_mem_singleton.mpr (by decide)
  have hnot : ¬ Narrowed ['a','|','é'] := fun hn => absurd (hn.1 'é' (by simp)) (by decide)
  cases hg : compile (characterPattern ['a','|','é']) 0 settings with
  | error error =>
    rw [hg] at hok
    cases hok
  | ok g =>
    exact ⟨g,rfl,compile_characterPattern rfl rfl (by simp) hencodes (fun _ => hnot) hg⟩

/-- In UTF-16 a single byte is found for `a|b`, which neither of the letters is. -/
theorem compile_characterPattern_letters :
    let settings : Settings := { builder := { encoding := .utf16le } }
    ∃ g, compile (characterPattern ['a','b']) 0 settings = .ok g ∧ [0x61] ∈ g.languageFrom 0 ∧
      ¬ ∃ c ∈ ['a','b'], settings.builder.encoding.encode c.toNat = some [0x61] := by
  intro settings
  have hok : (compile (characterPattern ['a','b']) 0 settings).isOk = true := by decide +kernel
  have hn : Narrowed ['a','b'] := ⟨by simp,'a',by simp,'b',by simp,by decide⟩
  cases hg : compile (characterPattern ['a','b']) 0 settings with
  | error error =>
    rw [hg] at hok
    cases hok
  | ok g =>
    refine ⟨g,rfl,?_,?_⟩
    · rw [languageFrom_narrowed rfl rfl hn hg]
      exact ⟨'a',by simp,rfl⟩
    · rintro ⟨c,hc,hencode⟩
      rcases List.mem_pair.mp hc with rfl | rfl
      all_goals exact absurd hencode (by decide)

end Compile

end ByteAutomata

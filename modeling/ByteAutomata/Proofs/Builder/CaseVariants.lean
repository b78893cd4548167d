import ByteAutomata.Proofs.Builder.Recognition
import ByteAutomata.Proofs.Encoding
import ByteAutomata.Proofs.Tree.Denotation

/-! # Case variants of a text

Without case, a text stands for every text that differs from it in the case of ASCII letters. What
is folded are bytes, so this needs code points whose bytes tell the letters: where half of a code
unit of UTF-16 looks like a letter, another character is found as well. -/
namespace ByteAutomata

/-- The texts where some ASCII letters are in their other case. -/
def CaseVariant (ns ms : List Nat) : Prop :=
  List.Forall₂ (fun n m => m = n ∨ m = otherCasePoint n) ns ms

/-- The bytes of a text, if all of it can be represented. -/
def Encoding.encodeAll (e : Encoding) : List Nat → Option (List UInt8)
  | [] => some []
  | n :: ns => do return (← e.encode n) ++ (← e.encodeAll ns)

/-- A text as one literal after the other, joined in any way. -/
inductive Term.SpellsText : List Nat → Term → Prop where
  | literal (n : Nat) : SpellsText [n] (.leaf (.literal n))
  | concatenation {ns ms : List Nat} {l r : Term} (hl : SpellsText ns l) (hr : SpellsText ms r) :
      SpellsText (ns ++ ms) (.concatenation l r)

section Variants
variable {s : BuilderSettings} {e : Term} {n : Nat} {ns : List Nat}

/-- The bytes of a code point in either case. -/
def Encoding.variants (e : Encoding) (n : Nat) : Language UInt8 :=
  {w | ∃ m, (m = n ∨ m = otherCasePoint n) ∧ e.encode m = some w}

theorem Encoding.mem_prod_variants (e : Encoding) (ns : List Nat) (w : List UInt8) :
    w ∈ (ns.map e.variants).prod ↔ ∃ ms, CaseVariant ns ms ∧ e.encodeAll ms = some w := by
  induction ns generalizing w with
  | nil =>
    simp [CaseVariant, encodeAll, Language.mem_one, eq_comm]
  | cons n ns ih =>
    rw [List.map_cons, List.prod_cons, Language.mem_mul]
    constructor
    · rintro ⟨u,⟨m,hm,hu⟩,v,hv,rfl⟩
      obtain ⟨ms,hms,henc⟩ := (ih v).mp hv
      exact ⟨m :: ms,.cons hm hms,by simp [encodeAll, hu, henc]⟩
    · rintro ⟨ms,hms,henc⟩
      cases hms with
      | @cons _ m _ ms hm hms =>
        obtain ⟨u,hu,v,hv,huv⟩ : ∃ u, e.encode m = some u ∧ ∃ v, e.encodeAll ms = some v ∧
            u ++ v = w := by simpa [encodeAll, Option.bind_eq_some_iff] using henc
        exact ⟨u,⟨m,hm,hu⟩,v,(ih v).mpr ⟨ms,hms,hv⟩,huv⟩

theorem Leaf.mem_language_literal {w : List UInt8} : w ∈ (literal n).language s ↔
    ∃ bytes, s.encoding.encode n = some bytes ∧
      List.Forall₂ (fun b x => s.allows b x = true) bytes w := by
  constructor
  · rintro ⟨ps,hps,hw⟩
    obtain ⟨bytes,hbytes,rfl⟩ := Option.map_eq_some_iff.mp hps
    exact ⟨bytes,hbytes,List.forall₂_map_left_iff.mp hw⟩
  · rintro ⟨bytes,hbytes,hw⟩
    exact ⟨bytes.map s.allows,by rw [conditions, hbytes, Option.map_some],
      List.forall₂_map_left_iff.mpr hw⟩

theorem BuilderSettings.allows_iff (hcase : s.caseSensitive = false) {b x : UInt8} :
    s.allows b x = true ↔ x = b ∨ x = otherCase b := by
  simp [allows, hcase]

/-- A zero byte beside the character has no other case. -/
theorem BuilderSettings.allows_asciiBytes (hcase : s.caseSensitive = false) (enc : Encoding)
    (b : UInt8) (w : List UInt8) :
    List.Forall₂ (fun b x => s.allows b x = true) (enc.asciiBytes b) w ↔
      w = enc.asciiBytes b ∨ w = enc.asciiBytes (otherCase b) := by
  have hzero : otherCase 0 = 0 := rfl
  simp only [allows_iff hcase]
  cases enc <;> simp [Encoding.asciiBytes, List.forall₂_cons_left_iff, hzero, or_and_right,
    exists_or]

/-- Bytes that are no letters are found as they are. -/
theorem BuilderSettings.allows_plain (hcase : s.caseSensitive = false) {bytes w : List UInt8}
    (hplain : ∀ b ∈ bytes, otherCase b = b) :
    List.Forall₂ (fun b x => s.allows b x = true) bytes w ↔ w = bytes := by
  induction bytes generalizing w with
  | nil => simp
  | cons b bytes ih =>
    obtain ⟨hb,hbytes⟩ := List.forall_mem_cons.mp hplain
    have hhead : ∀ x, s.allows b x = true ↔ x = b := fun x => by simp [allows_iff hcase, hb]
    simp [List.forall₂_cons_left_iff, hhead, ih hbytes]

/-- A literal stands for the cases of its code point. -/
theorem Leaf.language_literal_variants (hcase : s.caseSensitive = false)
    (hplain : s.encoding.IsPlain n) : (literal n).language s = s.encoding.variants n := by
  ext w
  rw [mem_language_literal]
  by_cases hn : n < 0x80
  · have hself := s.encoding.encode_of_lt hn
    have hother := s.encoding.encode_of_lt (otherCasePoint_lt hn)
    rw [← otherCase_ofNat hn] at hother
    have hvariants : w ∈ s.encoding.variants n ↔ w = s.encoding.asciiBytes (UInt8.ofNat n) ∨
        w = s.encoding.asciiBytes (otherCase (UInt8.ofNat n)) := by
      change (∃ m, (m = n ∨ m = otherCasePoint n) ∧ _) ↔ _
      simp [or_and_right, exists_or, hself, hother, eq_comm]
    rw [hvariants, ← BuilderSettings.allows_asciiBytes hcase, hself]
    simp
  · have hle : 0x80 ≤ n := Nat.le_of_not_lt hn
    have hvariants : w ∈ s.encoding.variants n ↔ s.encoding.encode n = some w := by
      change (∃ m, (m = n ∨ m = otherCasePoint n) ∧ _) ↔ _
      simp [otherCasePoint_of_le hle]
    rw [hvariants]
    constructor
    · rintro ⟨bytes,hbytes,hw⟩
      obtain rfl := (BuilderSettings.allows_plain hcase (hplain bytes hbytes hle)).mp hw
      exact hbytes
    · intro hw
      exact ⟨w,hw,(BuilderSettings.allows_plain hcase (hplain w hw hle)).mpr rfl⟩

theorem Term.SpellsText.language_eq (h : SpellsText ns e) (s : BuilderSettings) :
    e.language s = (ns.map fun n => (Leaf.literal n).language s).prod := by
  induction h with
  | literal n => simp [Term.language]
  | concatenation _ _ ihl ihr => rw [Term.language, ihl, ihr, List.map_append, List.prod_append]

theorem Term.SpellsText.unroll_eq (h : SpellsText ns e) : e.unroll = some e := by
  induction h with
  | literal n => rfl
  | concatenation _ _ ihl ihr => exact unroll_concatenation.mpr ⟨_,_,ihl,ihr,rfl⟩

theorem Term.SpellsText.nullable_eq (h : SpellsText ns e) : e.nullable = false := by
  induction h with
  | literal n => rfl
  | concatenation _ _ ihl ihr => simp [ihl]

theorem Term.SpellsText.encodable (h : SpellsText ns e)
    (henc : ∀ n ∈ ns, s.encoding.encode n ≠ none) : e.Encodable s := by
  induction h with
  | literal n =>
    rw [Encodable, Leaf.transitions, Ne, Option.map_eq_none_iff]
    exact henc n (by simp)
  | concatenation _ _ ihl ihr =>
    exact ⟨ihl fun n hn => henc n (List.mem_append_left _ hn),
      ihr fun n hn => henc n (List.mem_append_right _ hn)⟩

end Variants

namespace Builder
variable {b : Builder} {t : Tree} {e : Term} {ns : List Nat}

/-- A text is found in all cases of its ASCII letters, and in no other form. -/
theorem build_caseVariants (hcase : b.settings.caseSensitive = false) (ht : t.WellFormed)
    (hspells : t.Spells e) (htext : e.SpellsText ns)
    (henc : ∀ n ∈ ns, b.settings.encoding.encode n ≠ none)
    (hplain : b.settings.encoding = .utf16le ∨ b.settings.encoding = .utf16be →
      ∀ n ∈ ns, b.settings.encoding.IsPlain n) :
    ∃ b', b.build t = (.ok (),b') ∧ ∀ w,
      (∃ v, b'.graph.Walk 0 w v ∧ b'.graph.isMatch v = true) ↔
        ∃ ms, CaseVariant ns ms ∧ b.settings.encoding.encodeAll ms = some w := by
  have hplain : ∀ n ∈ ns, b.settings.encoding.IsPlain n := by
    intro n hn
    by_cases hutf : b.settings.encoding = .utf16le ∨ b.settings.encoding = .utf16be
    · exact hplain hutf n hn
    · rw [not_or] at hutf
      exact Encoding.isPlain_of_not_utf16 hutf.1 hutf.2 n
  obtain ⟨b',hb'⟩ :=
    exists_build ht hspells htext.unroll_eq (htext.encodable henc) htext.nullable_eq
  refine ⟨b',hb',fun w => ?_⟩
  have hlanguage : ns.map (fun n => (Leaf.literal n).language b.settings) =
      ns.map b.settings.encoding.variants :=
    List.map_congr_left fun n hn => Leaf.language_literal_variants hcase (hplain n hn)
  rw [← Graph.mem_languageFrom, languageFrom_build ht hb', hspells.language_eq,
    htext.language_eq, hlanguage, Encoding.mem_prod_variants]

/-- A letter and a letter beyond ASCII, which has one case only. -/
def letterAndAccent : Tree where
  nodes := #[{ kind := .literal 0x6B },{ kind := .literal 0xE9 },.concatenation 0 1,.regexp 2]
  root := some 3

theorem build_caseVariants_letterAndAccent :
    ∃ b', (ofSettings { caseSensitive := false, encoding := .utf16be }).build letterAndAccent =
        (.ok (),b') ∧ ∀ w,
      (∃ v, b'.graph.Walk 0 w v ∧ b'.graph.isMatch v = true) ↔
        ∃ ms, CaseVariant [0x6B,0xE9] ms ∧ Encoding.utf16be.encodeAll ms = some w := by
  have ht : letterAndAccent.WellFormed := .of_forall rfl rfl (by decide)
  have hspells : letterAndAccent.Spells
      (.concatenation (.leaf (.literal 0x6B)) (.leaf (.literal 0xE9))) :=
    ⟨3,2,rfl,rfl,.concatenation rfl (.leaf rfl) (.leaf rfl)⟩
  refine build_caseVariants (b := ofSettings { caseSensitive := false, encoding := .utf16be }) rfl
    ht hspells (.concatenation (.literal 0x6B) (.literal 0xE9)) (by decide) fun _ n hn => ?_
  have hbytes : ∀ n ∈ [0x6B,0xE9], ∀ bytes, Encoding.utf16be.encode n = some bytes → 0x80 ≤ n →
      ∀ b ∈ bytes, otherCase b = b := by decide +kernel
  exact hbytes n hn

/-- The letter whose low byte in UTF-16 looks like a capital one. -/
def strokeLetter : Tree where
  nodes := #[{ kind := .literal 0x141 },.regexp 0]
  root := some 1

/-- Another letter is found, since the byte is folded by itself. -/
theorem build_caseVariants_strokeLetter :
    ∃ b', (ofSettings { caseSensitive := false, encoding := .utf16le }).build strokeLetter =
        (.ok (),b') ∧
      (∃ v, b'.graph.Walk 0 [0x61,0x01] v ∧ b'.graph.isMatch v = true) ∧
      ¬ ∃ ms, CaseVariant [0x141] ms ∧ Encoding.utf16le.encodeAll ms = some [0x61,0x01] := by
  let b := ofSettings { caseSensitive := false, encoding := .utf16le }
  have ht : strokeLetter.WellFormed := .of_forall rfl rfl (by decide)
  have hok : (b.build strokeLetter).1 = .ok () := by decide +kernel
  have hbuild : b.build strokeLetter = (.ok (),(b.build strokeLetter).2) := Prod.ext hok rfl
  have hspells : strokeLetter.Spells (.leaf (.literal 0x141)) := ⟨1,0,rfl,rfl,.leaf rfl⟩
  refine ⟨_,hbuild,?_,?_⟩
  · rw [← Graph.mem_languageFrom, languageFrom_build ht hbuild, hspells.language_eq]
    exact Leaf.mem_language_literal.mpr ⟨[0x41,0x01],rfl,.cons rfl (.cons rfl .nil)⟩
  · rintro ⟨ms,hms,hw⟩
    obtain ⟨m,rest,rfl | rfl,hrest,rfl⟩ := List.forall₂_cons_left_iff.mp hms <;>
      obtain rfl := List.forall₂_nil_left_iff.mp hrest <;> revert hw <;> decide

end Builder
end ByteAutomata

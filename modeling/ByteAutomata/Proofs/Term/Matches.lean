import ByteAutomata.Proofs.Term.Priority

/-! # What a match takes

A match takes bytes from the head of the text only. A basic term has a match without bytes just if
it is nullable. -/
namespace ByteAutomata

theorem suffix_of_mem_strip {ps : List (UInt8 → Bool)} {text rest : List UInt8}
    (h : rest ∈ strip ps text) : rest <:+ text ∧ rest.length + ps.length = text.length := by
  induction ps generalizing text with
  | nil =>
    obtain rfl : rest = text := by simpa [strip] using h
    exact ⟨List.suffix_refl rest,rfl⟩
  | cons p ps ih =>
    cases text with
    | nil => simp [strip] at h
    | cons b text =>
      rw [strip] at h
      split at h
      · obtain ⟨hsuffix,hlength⟩ := ih h
        refine ⟨hsuffix.trans (List.suffix_cons b text),?_⟩
        rw [List.length_cons, List.length_cons, ← hlength]
        omega
      · simp at h

theorem mem_strip {ps : List (UInt8 → Bool)} {text rest : List UInt8} :
    rest ∈ strip ps text ↔
      ∃ w, List.Forall₂ (fun p b => p b = true) ps w ∧ text = w ++ rest := by
  induction ps generalizing text with
  | nil =>
    constructor
    · intro h
      obtain rfl := List.mem_singleton.mp h
      exact ⟨[],.nil,rfl⟩
    · rintro ⟨_,⟨⟩,rfl⟩
      exact List.mem_singleton.mpr rfl
  | cons p ps ih =>
    cases text with
    | nil => simp [strip, List.forall₂_cons_left_iff]
    | cons b text =>
      rw [strip]
      constructor
      · intro h
        split at h
        · rename_i hp
          obtain ⟨w,hw,rfl⟩ := ih.mp h
          exact ⟨b :: w,.cons hp hw,rfl⟩
        · cases h
      · rintro ⟨_,hw,htext⟩
        obtain ⟨c,w,hc,hrest,rfl⟩ := List.forall₂_cons_left_iff.mp hw
        obtain ⟨rfl,rfl⟩ := List.cons.inj htext
        rw [if_pos hc]
        exact ih.mpr ⟨w,hrest,rfl⟩

theorem eq_of_mem_strip {ps : List (UInt8 → Bool)} {text rest rest' : List UInt8}
    (h : rest ∈ strip ps text) (h' : rest' ∈ strip ps text) : rest = rest' := by
  obtain ⟨hsuffix,hlength⟩ := suffix_of_mem_strip h
  obtain ⟨hsuffix',hlength'⟩ := suffix_of_mem_strip h'
  have hsame : rest.length = rest'.length := by omega
  exact (List.suffix_of_suffix_length_le hsuffix hsuffix' hsame.le).eq_of_length hsame

theorem Leaf.mem_rests {s : BuilderSettings} {l : Leaf} {text rest : List UInt8} :
    rest ∈ l.rests s text ↔ ∃ w ∈ l.language s, text = w ++ rest := by
  unfold Leaf.rests
  split
  · rename_i ps hps
    rw [mem_strip]
    refine exists_congr fun w => and_congr_left' ?_
    constructor
    · exact fun hw => ⟨ps,hps,hw⟩
    · rintro ⟨ps',hps',hw⟩
      obtain rfl : ps = ps' := Option.some.inj (hps.symm.trans hps')
      exact hw
  · rename_i hnone
    refine iff_of_false List.not_mem_nil ?_
    rintro ⟨w,⟨ps,hps,-⟩,-⟩
    cases hnone.symm.trans hps

section Rounds
variable {once : List UInt8 → List (List UInt8)} {greedy : Bool}

theorem suffix_of_mem_rounds (honce : ∀ text, ∀ rest ∈ once text, rest <:+ text) (count : Nat) :
    ∀ text, ∀ rest ∈ rounds once count text, rest <:+ text := by
  induction count with
  | zero =>
    intro text rest h
    obtain rfl : rest = text := by simpa [rounds] using h
    exact List.suffix_refl rest
  | succ count ih =>
    intro text rest h
    obtain ⟨middle,hmiddle,hrest⟩ := List.mem_flatMap.mp h
    exact (ih middle rest hrest).trans (honce text middle hmiddle)

theorem mem_furtherRounds_succ {count : Nat} {text rest : List UInt8} :
    rest ∈ furtherRounds once greedy (count + 1) text ↔
      rest = text ∨ rest ∈ (once text).flatMap (furtherRounds once greedy count) := by
  rw [furtherRounds_succ]
  cases greedy with
  | true => rw [if_pos rfl, List.mem_append, List.mem_singleton, or_comm]
  | false => rw [if_neg Bool.false_ne_true, List.mem_cons]

theorem suffix_of_mem_furtherRounds (honce : ∀ text, ∀ rest ∈ once text, rest <:+ text)
    (count : Nat) : ∀ text, ∀ rest ∈ furtherRounds once greedy count text, rest <:+ text := by
  induction count with
  | zero =>
    intro text rest h
    obtain rfl : rest = text := by simpa [furtherRounds] using h
    exact List.suffix_refl rest
  | succ count ih =>
    intro text rest h
    rcases mem_furtherRounds_succ.mp h with rfl | hmem
    · exact List.suffix_refl rest
    · obtain ⟨middle,hmiddle,hrest⟩ := List.mem_flatMap.mp hmem
      exact (ih middle rest hrest).trans (honce text middle hmiddle)

theorem suffix_of_mem_endlessRounds (honce : ∀ text, ∀ rest ∈ once text, rest <:+ text)
    (text rest : List UInt8) (h : rest ∈ endlessRounds once greedy text) : rest <:+ text := by
  have hshorten : ∀ text, ∀ rest ∈ shorten once text, rest <:+ text := fun text rest h =>
    honce text rest (List.mem_filter.mp h).1
  exact suffix_of_mem_furtherRounds hshorten text.length text rest h

theorem mem_furtherRounds_self (count : Nat) (text : List UInt8) :
    text ∈ furtherRounds once greedy count text := by
  cases count with
  | zero => simp [furtherRounds]
  | succ count => exact mem_furtherRounds_succ.mpr (Or.inl rfl)

theorem mem_endlessRounds_self (text : List UInt8) : text ∈ endlessRounds once greedy text :=
  mem_furtherRounds_self text.length text

end Rounds

namespace Term
variable {s : BuilderSettings} {e : Term}

/-- A match leaves a suffix of the text. -/
theorem suffix_of_mem_rests (e : Term) : ∀ text, ∀ rest ∈ e.rests s text, rest <:+ text := by
  induction e with
  | leaf l =>
    intro text rest h
    rw [rests, Leaf.rests] at h
    split at h
    · exact (suffix_of_mem_strip h).1
    · simp at h
  | alternation l r ihl ihr =>
    intro text rest h
    rcases List.mem_append.mp h with h | h
    · exact ihl text rest h
    · exact ihr text rest h
  | concatenation l r ihl ihr =>
    intro text rest h
    obtain ⟨middle,hmiddle,hrest⟩ := List.mem_flatMap.mp h
    exact (ihr middle rest hrest).trans (ihl text middle hmiddle)
  | repetition min max greedy e ih =>
    intro text rest h
    obtain ⟨middle,hmiddle,hrest⟩ := List.mem_flatMap.mp h
    refine List.IsSuffix.trans ?_ (suffix_of_mem_rounds ih min text middle hmiddle)
    cases max with
    | none => exact suffix_of_mem_endlessRounds ih middle rest hrest
    | some max => exact suffix_of_mem_furtherRounds ih (max - min) middle rest hrest

theorem length_le_of_mem_rests {text rest : List UInt8} (h : rest ∈ e.rests s text) :
    rest.length ≤ text.length := (e.suffix_of_mem_rests text rest h).length_le

theorem eq_of_mem_rests {text rest : List UInt8} (h : rest ∈ e.rests s text)
    (hlength : ¬ rest.length < text.length) : rest = text :=
  (e.suffix_of_mem_rests text rest h).eq_of_length
    (Nat.le_antisymm (length_le_of_mem_rests h) (Nat.le_of_not_lt hlength))

/-- A term that is not nullable takes a byte at least. -/
theorem length_lt_of_mem_rests (hb : e.IsBasic) (hn : e.nullable = false) :
    ∀ text, ∀ rest ∈ e.rests s text, rest.length < text.length := by
  induction hb with
  | leaf l =>
    intro text rest h
    rw [rests, Leaf.rests] at h
    split at h
    · rename_i ps hps
      have hne : ps ≠ [] := fun hnil => l.conditions_ne_nil s (hnil ▸ hps)
      have hpos := List.length_pos_iff.mpr hne
      have hlength := (suffix_of_mem_strip h).2
      omega
    · simp at h
  | @alternation l r hl hr ihl ihr =>
    obtain ⟨hnl,hnr⟩ : l.nullable = false ∧ r.nullable = false := by simpa [nullable] using hn
    intro text rest h
    rcases List.mem_append.mp h with h | h
    · exact ihl hnl text rest h
    · exact ihr hnr text rest h
  | @concatenation l r hl hr ihl ihr =>
    intro text rest h
    obtain ⟨middle,hmiddle,hrest⟩ := List.mem_flatMap.mp h
    have hle₁ := length_le_of_mem_rests hmiddle
    have hle₂ := length_le_of_mem_rests hrest
    cases hnl : l.nullable with
    | false => exact Nat.lt_of_le_of_lt hle₂ (ihl hnl text middle hmiddle)
    | true =>
      have hnr : r.nullable = false := by simpa [nullable, hnl] using hn
      exact Nat.lt_of_lt_of_le (ihr hnr middle rest hrest) hle₁
  | optional greedy hb ih => simp [nullable] at hn
  | star greedy hb ih => simp [nullable] at hn
  | @plus greedy e hb ih =>
    have hne : e.nullable = false := by simpa [nullable] using hn
    intro text rest h
    rw [rests_plus] at h
    obtain ⟨middle,hmiddle,hrest⟩ := List.mem_flatMap.mp h
    have hsuffix := suffix_of_mem_endlessRounds e.suffix_of_mem_rests middle rest hrest
    exact Nat.lt_of_le_of_lt hsuffix.length_le (ih hne text middle hmiddle)

/-- A nullable term can be left without a byte. -/
theorem mem_rests_self (hb : e.IsBasic) (hn : e.nullable = true) (text : List UInt8) :
    text ∈ e.rests s text := by
  induction hb with
  | leaf l => simp [nullable] at hn
  | @alternation l r hl hr ihl ihr =>
    rcases (Bool.or_eq_true _ _).mp hn with hn | hn
    · exact List.mem_append_left _ (ihl hn)
    · exact List.mem_append_right _ (ihr hn)
  | @concatenation l r hl hr ihl ihr =>
    obtain ⟨hnl,hnr⟩ := (Bool.and_eq_true _ _).mp hn
    exact List.mem_flatMap.mpr ⟨text,ihl hnl,ihr hnr⟩
  | @optional greedy e hb ih =>
    rw [rests_option]
    exact mem_furtherRounds_self 1 text
  | @star greedy e hb ih =>
    rw [rests_star]
    exact mem_endlessRounds_self text
  | @plus greedy e hb ih =>
    rw [rests_plus]
    have hne : e.nullable = true := by simpa [nullable] using hn
    exact List.mem_flatMap.mpr ⟨text,ih hne,mem_endlessRounds_self text⟩

end Term
end ByteAutomata

import ByteAutomata.Proofs.CaseFolding
import ByteAutomata.Proofs.Expr.TrimmedLanguage

/-! # Expressions without case

An expression ignores the cases of another one if it matches the same strings in any case and looks
the same to the simplifying constructors and to trimming, as far as they look for what is empty. The
constructors keep this, and so does trimming, unless shared leading items get in its way. -/
namespace ByteAutomata.Expr
variable {e f : Expr} {es fs : List Expr}

structure IgnoresCase (e f : Expr) : Prop where
  left : e.Tidy
  right : f.Tidy
  language : e.language = ignoringCase f.language
  onlyEmpty : e.onlyEmpty = f.onlyEmpty
  vanishes : e.vanishes = f.vanishes

theorem IsSymbol.vanishes (h : e.IsSymbol) : e.vanishes = false := by
  rw [Expr.vanishes, h.trimLazyEnd_eq]
  cases e <;> first | rfl | cases h

section Lists

/-- What holds of the items one by one holds of what they are mapped to. -/
theorem map_eq_of_forall₂ {α β : Type} {R : Expr → Expr → Prop} {g : Expr → α} {k : Expr → β}
    {t : β → α} (h : List.Forall₂ R es fs) (hsame : ∀ {e f : Expr}, R e f → g e = t (k f)) :
    es.map g = (fs.map k).map t := by
  rw [List.map_map, ← List.forall₂_eq_eq_eq, List.forall₂_map_left_iff, List.forall₂_map_right_iff]
  exact h.imp fun _ _ => hsame

variable (h : List.Forall₂ IgnoresCase es fs)
include h

theorem tidy_left : ∀ e ∈ es, e.Tidy := by
  induction h with
  | nil => simp
  | cons h _ ih => exact List.forall_mem_cons.mpr ⟨h.left,ih⟩

theorem tidy_right : ∀ f ∈ fs, f.Tidy := by
  induction h with
  | nil => simp
  | cons h _ ih => exact List.forall_mem_cons.mpr ⟨h.right,ih⟩

theorem all_eq_all {test : Expr → Bool} (hsame : ∀ {e f : Expr}, IgnoresCase e f → test e = test f) :
    es.all test = fs.all test := by
  induction h with
  | nil => rfl
  | cons h _ ih => rw [List.all_cons, List.all_cons, hsame h, ih]

end Lists

namespace IgnoresCase

theorem symbol (hleft : e.Tidy) (hright : f.Tidy) (he : e.IsSymbol) (hf : f.IsSymbol)
    (hlanguage : e.language = ignoringCase f.language) : IgnoresCase e f where
  left := hleft
  right := hright
  language := hlanguage
  onlyEmpty := he.onlyEmpty.trans hf.onlyEmpty.symm
  vanishes := he.vanishes.trans hf.vanishes.symm

/-- What takes no bytes has no case. -/
theorem refl_of_one (htidy : e.Tidy) (h : e.language = 1) : IgnoresCase e e where
  left := htidy
  right := htidy
  language := by rw [h, ignoringCase_one]
  onlyEmpty := rfl
  vanishes := rfl

theorem trimmed (h : IgnoresCase e f) (he : e.endsReluctantly = false)
    (hf : f.endsReluctantly = false) : e.trimmed = ignoringCase f.trimmed := by
  rw [trimmed_eq_language h.left he, trimmed_eq_language h.right hf, h.language]

section Constructors
variable {min : Nat} {max : Option Nat} {greedy : Bool}

theorem repeated (h : IgnoresCase e f) (hbounds : ∀ m, max = some m → min ≤ m) :
    IgnoresCase (repeated min max greedy e) (repeated min max greedy f) where
  left := each_repeated kept_isTidy hbounds h.left
  right := each_repeated kept_isTidy hbounds h.right
  language := by
    rw [language_repeated hbounds h.left.wellFormed, language_repeated hbounds h.right.wellFormed,
      h.language, ignoringCase_powers]
  onlyEmpty := by rw [onlyEmpty_repeated, onlyEmpty_repeated, h.onlyEmpty]
  vanishes := by
    rw [vanishes_repeated hbounds h.left, vanishes_repeated hbounds h.right, h.onlyEmpty, h.vanishes]

theorem trimmed_repeated (h : IgnoresCase e f) (hbounds : ∀ m, max = some m → min ≤ m)
    (htrim : greedy = true ∧ ¬ (min = 1 ∧ max = some 1) ∨ min = 0 ∨
      e.trimmed = ignoringCase f.trimmed) :
    (Expr.repeated min max greedy e).trimmed =
      ignoringCase (Expr.repeated min max greedy f).trimmed := by
  rw [Expr.trimmed_repeated hbounds h.left.wellFormed,
    Expr.trimmed_repeated hbounds h.right.wellFormed]
  split
  · rw [h.language, ignoringCase_powers]
  · rename_i hends
    split
    · exact ignoringCase_one.symm
    · rename_i hzero
      rw [h.language, (htrim.resolve_left hends).resolve_left hzero, ignoringCase_mul,
        ignoringCase_pow]

theorem capture (h : IgnoresCase e f) (index : Nat) (name : Option String) :
    IgnoresCase (capture index name e) (capture index name f) where
  left := each_capture.mpr ⟨kept_isTidy.capture index name e,h.left⟩
  right := each_capture.mpr ⟨kept_isTidy.capture index name f,h.right⟩
  language := h.language
  onlyEmpty := h.onlyEmpty
  vanishes := rfl

theorem sequence (h : List.Forall₂ IgnoresCase es fs) :
    IgnoresCase (sequence es) (sequence fs) where
  left := each_sequence kept_isTidy (tidy_left h)
  right := each_sequence kept_isTidy (tidy_right h)
  language := by
    rw [language_sequence, language_sequence, product_eq, product_eq, ignoringCase_prod,
      map_eq_of_forall₂ h language]
  onlyEmpty := by
    rw [Bool.eq_iff_iff, onlyEmpty_sequence, onlyEmpty_sequence, ← List.all_eq_true,
      ← List.all_eq_true, all_eq_all h onlyEmpty]
  vanishes := by
    rw [vanishes_sequence (tidy_left h), vanishes_sequence (tidy_right h), all_eq_all h vanishes]

theorem choice (h : List.Forall₂ IgnoresCase es fs) : IgnoresCase (choice es) (choice fs) where
  left := each_choice kept_isTidy (tidy_left h)
  right := each_choice kept_isTidy (tidy_right h)
  language := by
    rw [language_choice fun e he => (tidy_left h e he).wellFormed,
      language_choice fun f hf => (tidy_right h f hf).wellFormed, union_eq, union_eq,
      ignoringCase_sum, map_eq_of_forall₂ h language]
  onlyEmpty := by
    cases h with
    | nil => rfl
    | cons h hrest =>
      have hall := List.Forall₂.cons h hrest
      rw [Bool.eq_iff_iff,
        onlyEmpty_choice (List.cons_ne_nil _ _) fun e he => (tidy_left hall e he).wellFormed,
        onlyEmpty_choice (List.cons_ne_nil _ _) fun f hf => (tidy_right hall f hf).wellFormed,
        ← List.all_eq_true, ← List.all_eq_true, all_eq_all hall onlyEmpty]
  vanishes := by
    rw [vanishes_choice (tidy_left h), vanishes_choice (tidy_right h), h.length_eq,
      all_eq_all h vanishes]

theorem trimmed_choice (h : List.Forall₂ IgnoresCase es fs)
    (htrim : List.Forall₂ (fun e f => e.trimmed = ignoringCase f.trimmed) es fs)
    (hes : sharesReluctantEnd es = false) (hfs : sharesReluctantEnd fs = false) :
    (Expr.choice es).trimmed = ignoringCase (Expr.choice fs).trimmed := by
  rw [Expr.trimmed_choice (tidy_left h) hes, Expr.trimmed_choice (tidy_right h) hfs,
    ignoringCase_sum, map_eq_of_forall₂ htrim id]

end Constructors

end IgnoresCase

end ByteAutomata.Expr

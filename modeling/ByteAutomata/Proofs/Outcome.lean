import Mathlib.Tactic.Common

/-! # Outcomes

How a sequence of steps, each of which may fail, comes out. -/
namespace ByteAutomata
variable {ε α β σ : Type}

@[simp] theorem ok_bind (a : α) (f : α → Except ε β) : (Except.ok a >>= f) = f a := rfl

@[simp] theorem error_bind (e : ε) (f : α → Except ε β) :
    ((Except.error e : Except ε α) >>= f) = .error e := rfl

theorem bind_eq_ok {x : Except ε α} {f : α → Except ε β} {b : β} :
    (x >>= f) = .ok b ↔ ∃ a, x = .ok a ∧ f a = .ok b := by
  cases x with
  | error e => simp
  | ok a => simp

@[simp] theorem mapError_ok {ε' : Type} (f : ε → ε') (a : α) :
    (Except.ok a : Except ε α).mapError f = .ok a := rfl

@[simp] theorem mapError_error {ε' : Type} (f : ε → ε') (e : ε) :
    (Except.error e : Except ε α).mapError f = .error (f e) := rfl

theorem mapError_eq_ok {ε' : Type} {f : ε → ε'} {x : Except ε α} {a : α} :
    x.mapError f = .ok a ↔ x = .ok a := by
  cases x with
  | error e => simp
  | ok a => simp

theorem toOption_eq_some {x : Except ε α} {a : α} : x.toOption = some a ↔ x = .ok a := by
  cases x with
  | error e => simp [Except.toOption]
  | ok b => simp [Except.toOption]

theorem foldlM_append_ok {f : σ → α → Except ε σ} {xs ys : List α} {s s' : σ}
    (h : xs.foldlM f s = .ok s') : (xs ++ ys).foldlM f s = ys.foldlM f s' := by
  rw [List.foldlM_append, h, ok_bind]

theorem foldlM_append_error {f : σ → α → Except ε σ} {xs ys : List α} {s : σ} {e : ε}
    (h : xs.foldlM f s = .error e) : (xs ++ ys).foldlM f s = .error e := by
  rw [List.foldlM_append, h, error_bind]

/-- A step of a run that takes a measure past `k`. -/
theorem exists_crossing {f : σ → α → Except ε σ} {xs : List α} {s s' : σ} {k : Nat}
    (measure : σ → Nat) (hrun : xs.foldlM f s = .ok s') (hlow : measure s ≤ k)
    (hhigh : k < measure s') :
    ∃ earlier x later u u', xs = earlier ++ x :: later ∧ earlier.foldlM f s = .ok u ∧
      f u x = .ok u' ∧ measure u ≤ k ∧ k < measure u' := by
  induction xs generalizing s with
  | nil =>
    obtain rfl := Except.ok.inj hrun
    exact absurd hhigh (Nat.not_lt.mpr hlow)
  | cons x xs ih =>
    rw [List.foldlM_cons] at hrun
    obtain ⟨w,hw,hrest⟩ := bind_eq_ok.mp hrun
    by_cases hpast : k < measure w
    · exact ⟨[],x,xs,s,w,rfl,rfl,hw,hlow,hpast⟩
    · obtain ⟨earlier,y,later,u,u',rfl,hrun',hstep⟩ := ih hrest (Nat.not_lt.mp hpast)
      refine ⟨x :: earlier,y,later,u,u',rfl,?_,hstep⟩
      rw [List.foldlM_cons, hw, ok_bind, hrun']

/-- A step that fails with the error, if there is one, and otherwise yields a result that `P`
holds of. -/
inductive EndsIn (P : α → Prop) : Option ε → Except ε α → Prop where
  | error (e : ε) : EndsIn P (some e) (.error e)
  | ok {a : α} (h : P a) : EndsIn P none (.ok a)

/-- The error of the first step comes first. -/
theorem EndsIn.bind {P : α → Prop} {Q : β → Prop} {e? e'? : Option ε} {x : Except ε α}
    {f : α → Except ε β} (hx : EndsIn P e? x) (hf : ∀ a, P a → EndsIn Q e'? (f a)) :
    EndsIn Q (e?.or e'?) (x >>= f) := by
  cases hx with
  | error e => exact .error e
  | ok h => exact hf _ h

/-- A second step that always succeeds. -/
theorem EndsIn.bind_ok {P : α → Prop} {Q : β → Prop} {e? : Option ε} {x : Except ε α}
    {f : α → Except ε β} (hx : EndsIn P e? x) (hf : ∀ a, P a → EndsIn Q none (f a)) :
    EndsIn Q e? (x >>= f) := by
  rw [← Option.or_none (o := e?)]
  exact hx.bind hf

/-- A step that fails with an error that `Q` holds of, or yields a result that `P` holds of. -/
inductive EndsBy (Q : ε → Prop) (P : α → Prop) : Except ε α → Prop where
  | error {e : ε} (h : Q e) : EndsBy Q P (.error e)
  | ok {a : α} (h : P a) : EndsBy Q P (.ok a)

namespace EndsBy
variable {Q Q' : ε → Prop} {P P' : α → Prop} {R : β → Prop} {x : Except ε α}

theorem bind {f : α → Except ε β} (hx : EndsBy Q P x) (hf : ∀ a, P a → EndsBy Q R (f a)) :
    EndsBy Q R (x >>= f) := by
  cases hx with
  | error h => exact .error h
  | ok h => exact hf _ h

theorem mono (hx : EndsBy Q P x) (hQ : ∀ e, Q e → Q' e) (hP : ∀ a, P a → P' a) :
    EndsBy Q' P' x := by
  cases hx with
  | error h => exact .error (hQ _ h)
  | ok h => exact .ok (hP _ h)

theorem of_ok {a : α} (h : EndsBy Q P (.ok a)) : P a := by
  cases h with
  | ok h => exact h

theorem of_error {e : ε} (h : EndsBy Q P (.error e)) : Q e := by
  cases h with
  | error h => exact h

/-- What each step keeps is kept by all of them together. -/
theorem foldlM {P : σ → Prop} {f : σ → α → Except ε σ} {xs : List α} {s : σ} (hs : P s)
    (hf : ∀ s, P s → ∀ x ∈ xs, EndsBy Q P (f s x)) : EndsBy Q P (xs.foldlM f s) := by
  induction xs generalizing s with
  | nil => exact .ok hs
  | cons x xs ih =>
    rw [List.foldlM_cons]
    exact (hf s hs x List.mem_cons_self).bind fun s' hs' =>
      ih hs' fun s'' hs'' y hy => hf s'' hs'' y (List.mem_cons_of_mem x hy)

end EndsBy

/-- Where `x` yields a result, so does `y`, and `R` holds of both. -/
def Carries {ε' : Type} (R : α → β → Prop) (x : Except ε α) (y : Except ε' β) : Prop :=
  ∀ a, x = .ok a → ∃ b, y = .ok b ∧ R a b

namespace Carries
variable {ε' α' β' τ : Type} {R : α → β → Prop} {R' : α' → β' → Prop}
variable {x : Except ε α} {y : Except ε' β}

theorem ok {a : α} {b : β} (h : R a b) :
    Carries R (.ok a : Except ε α) (.ok b : Except ε' β) := by
  rintro _ ⟨⟩
  exact ⟨b,rfl,h⟩

theorem error (e : ε) : Carries R (.error e) y := by
  rintro a ⟨⟩

theorem bind {f : α → Except ε α'} {g : β → Except ε' β'} (h : Carries R x y)
    (hf : ∀ a b, R a b → Carries R' (f a) (g b)) : Carries R' (x >>= f) (y >>= g) := by
  intro c hc
  obtain ⟨a,ha,hfa⟩ := bind_eq_ok.mp hc
  obtain ⟨b,hb,hab⟩ := h a ha
  obtain ⟨d,hd,hcd⟩ := hf a b hab c hfa
  exact ⟨d,bind_eq_ok.mpr ⟨b,hb,hd⟩,hcd⟩

theorem mapError {φ φ' : Type} {f : ε → φ} {g : ε' → φ'} (h : Carries R x y) :
    Carries R (x.mapError f) (y.mapError g) := by
  intro a ha
  obtain ⟨b,hb,hab⟩ := h a (mapError_eq_ok.mp ha)
  exact ⟨b,mapError_eq_ok.mpr hb,hab⟩

/-- Two runs whose steps belong together one by one. -/
theorem foldlM {R : σ → τ → Prop} {f : σ → α → Except ε σ} {g : τ → β → Except ε' τ} {k : α → β}
    {xs : List α} {s : σ} {t : τ} (h : R s t)
    (hstep : ∀ s t, R s t → ∀ x ∈ xs, Carries R (f s x) (g t (k x))) :
    Carries R (xs.foldlM f s) ((xs.map k).foldlM g t) := by
  induction xs generalizing s t with
  | nil => exact .ok h
  | cons x xs ih =>
    rw [List.map_cons, List.foldlM_cons, List.foldlM_cons]
    exact (hstep s t h x List.mem_cons_self).bind fun s' t' h' =>
      ih h' fun s'' t'' h'' y hy => hstep s'' t'' h'' y (List.mem_cons_of_mem x hy)

end Carries

end ByteAutomata

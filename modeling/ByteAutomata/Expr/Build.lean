import ByteAutomata.Expr.Basic

/-! # Simplifying constructors

Every expression is made by these functions, which keep it in a simple form: classes of one member
are literals, concatenations hold no two literals in a row and no concatenation, and alternations
hold no alternation, are not merely a class in disguise, and have no leading items in common. -/
namespace ByteAutomata.Expr

def fail : Expr := byteClass .empty

def ofByteClass (set : ByteClass) : Expr :=
  if set.isEmpty then fail
  else match set.single? with
    | some n => literal [UInt8.ofNat n]
    | none => byteClass set

def ofCharClass (set : CharClass) : Expr :=
  if set.isEmpty then fail
  else match set.single? with
    | some n => literal (Utf8.encode n)
    | none => charClass set

/-- A repetition of something that only matches the empty string needs at most one round. -/
def repeated (min : Nat) (max : Option Nat) (greedy : Bool) (sub : Expr) : Expr :=
  let capped := sub.onlyEmpty
  let min := if capped then Nat.min min 1 else min
  let max := if capped then some (Nat.min (max.getD 1) 1) else max
  if min = 0 ∧ max = some 0 then empty
  else if min = 1 ∧ max = some 1 then sub
  else repetition min max greedy sub

/-- What an expression contributes to a concatenation around it. -/
def concatItems : Expr → List Expr
  | empty => []
  | concat items => items
  | e => [e]

def alternationItems : Expr → List Expr
  | alternation items => items
  | e => [e]

def joinLiterals : List Expr → List Expr
  | literal a :: rest =>
    match joinLiterals rest with
    | literal b :: more => literal (a ++ b) :: more
    | more => literal a :: more
  | e :: rest => e :: joinLiterals rest
  | [] => []

def sequence (items : List Expr) : Expr :=
  match joinLiterals (items.flatMap concatItems) with
  | [] => empty
  | [e] => e
  | es => concat es

def charLiteral? : Expr → Option Nat
  | literal bytes => Utf8.single? bytes
  | _ => none

def byteLiteral? : Expr → Option Nat
  | literal [b] => some b.toNat
  | _ => none

def asCharClass? : Expr → Option CharClass
  | charClass set => some set
  | byteClass set => ByteClass.toCharClass? set
  | _ => none

def asByteClass? : Expr → Option ByteClass
  | byteClass set => some set
  | charClass set => CharClass.toByteClass? set
  | _ => none

/-- The class that an alternation of two or more items amounts to, if it does. -/
def mergedClass? (items : List Expr) : Option Expr :=
  let points {p : Points} (ns : List Nat) : Intervals p := .ofRanges (ns.map fun n => (n, n))
  let unions {p : Points} (sets : List (Intervals p)) : Intervals p :=
    sets.foldl Intervals.union .empty
  ((items.mapM charLiteral?).map fun ns => ofCharClass (points ns))
    <|> ((items.mapM byteLiteral?).map fun ns => ofByteClass (points ns))
    <|> ((items.mapM asCharClass?).map fun sets => ofCharClass (unions sets))
    <|> ((items.mapM asByteClass?).map fun sets => ofByteClass (unions sets))

def commonLength : List Expr → List Expr → Nat
  | e :: es, f :: fs => if e = f then commonLength es fs + 1 else 0
  | _, _ => 0

def itemsOfConcat? : Expr → Option (List Expr)
  | concat items => some items
  | _ => none

theorem sizes_joinLiterals (es : List Expr) : sizes (joinLiterals es) ≤ sizes es := by
  fun_induction joinLiterals es with
  | case1 a rest b more h ih =>
    simp only [h, sizes, size] at ih ⊢
    omega
  | case2 a rest h ih =>
    simp only [sizes] at ih ⊢
    omega
  | case3 e rest _ ih =>
    simp only [sizes] at ih ⊢
    omega
  | case4 => simp

theorem sizes_concatItems (e : Expr) : sizes e.concatItems ≤ e.size := by
  cases e <;> simp [concatItems, sizes, size]

theorem sizes_alternationItems (e : Expr) : sizes e.alternationItems ≤ e.size := by
  cases e <;> simp [alternationItems, sizes, size]

theorem sizes_flatMap_le {f : Expr → List Expr} (hf : ∀ e, sizes (f e) ≤ e.size)
    (es : List Expr) : sizes (es.flatMap f) ≤ sizes es := by
  induction es with
  | nil => simp [sizes]
  | cons e es ih =>
    have := hf e
    simp only [List.flatMap_cons, sizes_append, sizes]
    omega

theorem size_sequence_le (es : List Expr) : (sequence es).size ≤ sizes es + 1 := by
  have hj := sizes_joinLiterals (es.flatMap concatItems)
  have hf := sizes_flatMap_le sizes_concatItems es
  unfold sequence
  split
  · simp [size]
  · rename_i h
    simp only [h, sizes] at hj
    omega
  · simp only [size]
    omega

theorem sizes_drop_lt {es : List Expr} {n : Nat} (hn : 0 < n) (hne : es ≠ []) :
    sizes (es.drop n) < sizes es := by
  cases es with
  | nil => simp at hne
  | cons e es =>
    obtain ⟨m,rfl⟩ : ∃ m, n = m + 1 := ⟨n - 1,by omega⟩
    have hs : sizes (es.take m ++ es.drop m) = sizes es := by rw [List.take_append_drop]
    have := size_pos e
    simp only [sizes_append] at hs
    simp only [List.drop_succ_cons, sizes]
    omega

/-- The items of the concatenations, and how many leading ones all of them share. -/
def sharedStart? (items : List Expr) : Option (List (List Expr) × Nat) :=
  match items.mapM itemsOfConcat? with
  | some (first :: rest) =>
    let count := rest.foldl (fun n es => min n (commonLength first es)) first.length
    if 0 < count then some (first :: rest, count) else none
  | _ => none

theorem commonLength_le (es fs : List Expr) : commonLength es fs ≤ fs.length := by
  fun_induction commonLength es fs <;> simp_all

theorem sizes_tails_lt {items : List Expr} {lists : List (List Expr)} {n : Nat}
    (hm : items.mapM itemsOfConcat? = some lists) (hn : 0 < n) (hl : ∀ es ∈ lists, es ≠ []) :
    sizes (lists.map fun es => sequence (es.drop n)) + lists.length ≤ sizes items := by
  induction items generalizing lists with
  | nil => simp_all [sizes]
  | cons e rest ih =>
    simp only [List.mapM_cons, Option.pure_def, Option.bind_eq_bind, Option.bind_eq_some_iff,
      Option.some.injEq] at hm
    obtain ⟨es,he,tails,ht,rfl⟩ := hm
    have hrest := ih ht fun x hx => hl x (by simp [hx])
    have hd := sizes_drop_lt hn (hl es (by simp))
    have hq := size_sequence_le (es.drop n)
    have hsize : e.size = sizes es + 1 := by
      cases e <;> simp_all [itemsOfConcat?, size]
    simp only [List.map_cons, sizes, List.length_cons]
    omega

theorem foldl_commonLength_le (first : List Expr) (rest : List (List Expr)) (n : Nat) :
    rest.foldl (fun n es => min n (commonLength first es)) n ≤ n ∧
      ∀ es ∈ rest, rest.foldl (fun n es => min n (commonLength first es)) n ≤
        commonLength first es := by
  induction rest generalizing n with
  | nil => simp
  | cons es rest ih =>
    obtain ⟨hle,hall⟩ := ih (min n (commonLength first es))
    obtain ⟨hn,hes⟩ := Nat.le_min.mp hle
    exact ⟨hn,List.forall_mem_cons.mpr ⟨hes,hall⟩⟩

theorem sizes_sharedStart {items : List Expr} {lists : List (List Expr)} {n : Nat}
    (h : sharedStart? items = some (lists, n)) :
    sizes (lists.map fun es => sequence (es.drop n)) < sizes items := by
  unfold sharedStart? at h
  split at h
  · rename_i first rest hm
    simp only [Option.ite_none_right_eq_some, Option.some.injEq, Prod.mk.injEq] at h
    obtain ⟨hn,rfl,hc⟩ := h
    obtain ⟨hfirst,hrest⟩ := foldl_commonLength_le first rest first.length
    have hne : ∀ es ∈ first :: rest, es ≠ [] := by
      rintro es hes rfl
      have hlength : 0 < ([] : List Expr).length := by
        rcases List.mem_cons.1 hes with rfl | hes
        · exact Nat.lt_of_lt_of_le hn hfirst
        · exact Nat.lt_of_lt_of_le hn (Nat.le_trans (hrest [] hes) (commonLength_le first []))
      exact Nat.lt_irrefl 0 hlength
    have htails := sizes_tails_lt hm (hc ▸ hn) hne
    simp only [List.length_cons] at htails
    omega
  · simp at h

/-- An alternation; leading items that all alternatives share are taken out in front. -/
def choice (items : List Expr) : Expr :=
  match _h : items.flatMap alternationItems with
  | [] => fail
  | [e] => e
  | e :: f :: rest =>
    match mergedClass? (e :: f :: rest) with
    | some merged => merged
    | none =>
      match _hs : sharedStart? (e :: f :: rest) with
      | some (lists, n) =>
        sequence ((lists.headD []).take n ++ [choice (lists.map fun es => sequence (es.drop n))])
      | none => alternation (e :: f :: rest)
termination_by sizes items
decreasing_by
  exact Nat.lt_of_lt_of_le (sizes_sharedStart _hs)
    (_h ▸ sizes_flatMap_le sizes_alternationItems items)

end ByteAutomata.Expr

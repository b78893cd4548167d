import ByteAutomata.Proofs.Term.Language

/-! # Unique decoding

The code point at the head of a byte string can be read back in every encoding, whatever follows
it. So no code point is written as the beginning of another one, and a text has no other text with
the same bytes. -/
namespace ByteAutomata.Encoding
variable {e : Encoding} {m n : Nat} {bytes bytes' rest rest' : List UInt8}

/-- The code points that an encoding has bytes for. -/
def Represents (e : Encoding) (n : Nat) : Prop :=
  match e with
  | ascii => n < 0x80
  | latin1 => n < 0x100
  | utf8 | utf16le | utf16be => n ≤ 0x10FFFF ∧ ¬ (0xD800 ≤ n ∧ n ≤ 0xDFFF)

instance (e : Encoding) : DecidablePred e.Represents := fun n =>
  match e with
  | ascii => inferInstanceAs (Decidable (n < 0x80))
  | latin1 => inferInstanceAs (Decidable (n < 0x100))
  | utf8 | utf16le | utf16be =>
    inferInstanceAs (Decidable (n ≤ 0x10FFFF ∧ ¬ (0xD800 ≤ n ∧ n ≤ 0xDFFF)))

/-- What stands in the buffer for a code point that has been written. -/
def written (e : Encoding) (n : Nat) (buffer : e.Buffer) : List UInt8 :=
  (e.write n buffer).2.toList.take (e.write n buffer).1

section Represented

theorem isScalar_iff : Utf8.IsScalar n ↔ n ≤ 0x10FFFF ∧ ¬ (0xD800 ≤ n ∧ n ≤ 0xDFFF) := by
  unfold Utf8.IsScalar
  omega

theorem represents_iff : e.Represents n ↔ ∃ bytes, e.encode n = some bytes := by
  rw [← Option.isSome_iff_exists]
  cases e <;> simp [Represents, encode, isScalar_iff]

theorem ne_nil_of_encode (h : e.encode n = some bytes) : bytes ≠ [] :=
  fun hnil => e.encode_ne_nil n (hnil ▸ h)

theorem written_eq (h : e.encode n = some bytes) (buffer : e.Buffer) :
    e.written n buffer = bytes := by
  rw [written, take_write, h, Option.getD_some]

end Represented

section Reading

/-- Reads a code point of UTF-16, whose code units are given by two bytes each. -/
def decodeUnits (unit : UInt8 → UInt8 → Nat) : List UInt8 → Option (Nat × List UInt8)
  | a :: b :: rest =>
    if unit a b < 0xD800 ∨ 0xDFFF < unit a b then some (unit a b,rest)
    else
      match rest with
      | c :: d :: rest =>
        some (0x10000 + ((unit a b - 0xD800) * 0x400 + (unit c d - 0xDC00)),rest)
      | _ => none
  | _ => none

/-- Reads the code point at the head of the bytes. -/
def decodeHead (e : Encoding) (bytes : List UInt8) : Option (Nat × List UInt8) :=
  match e, bytes with
  | ascii, b :: rest | latin1, b :: rest => some (b.toNat,rest)
  | ascii, [] | latin1, [] => none
  | utf8, bytes => Utf8.decodeHead bytes
  | utf16le, bytes => decodeUnits (fun low high => high.toNat * 0x100 + low.toNat) bytes
  | utf16be, bytes => decodeUnits (fun high low => high.toNat * 0x100 + low.toNat) bytes

theorem decodeUnits_utf16Units {unit : UInt8 → UInt8 → Nat} {split : Nat → List UInt8}
    (hsplit : ∀ u < 0x10000, ∃ a b, split u = [a,b] ∧ unit a b = u) (hn : Utf8.IsScalar n)
    (rest : List UInt8) :
    decodeUnits unit ((utf16Units n).flatMap split ++ rest) = some (n,rest) := by
  unfold Utf8.IsScalar at hn
  unfold utf16Units
  split_ifs with hone
  · obtain ⟨a,b,hu,hab⟩ := hsplit n hone
    rw [List.flatMap_singleton, hu]
    simp only [List.cons_append, List.nil_append, decodeUnits, hab]
    rw [if_pos (by omega)]
  · obtain ⟨a,b,hu,hab⟩ := hsplit (0xD800 + (n - 0x10000) / 0x400) (by omega)
    obtain ⟨c,d,hv,hcd⟩ := hsplit (0xDC00 + (n - 0x10000) % 0x400) (by omega)
    have hvalue : 0x10000 + ((0xD800 + (n - 0x10000) / 0x400 - 0xD800) * 0x400 +
        (0xDC00 + (n - 0x10000) % 0x400 - 0xDC00)) = n := by omega
    rw [List.flatMap_cons, List.flatMap_singleton, hu, hv]
    simp only [List.cons_append, List.nil_append, decodeUnits, hab, hcd]
    rw [if_neg (by omega), hvalue]

theorem toNat_unit {u : Nat} (hu : u < 0x10000) :
    (UInt8.ofNat (u / 0x100)).toNat * 0x100 + (UInt8.ofNat (u % 0x100)).toNat = u := by
  rw [UInt8.toNat_ofNat_of_lt' (show u / 0x100 < 0x100 by omega),
    UInt8.toNat_ofNat_of_lt' (show u % 0x100 < 0x100 by omega)]
  omega

/-- What is written for a code point is read as that code point, whatever follows. -/
theorem decodeHead_encode (h : e.encode n = some bytes) (rest : List UInt8) :
    e.decodeHead (bytes ++ rest) = some (n,rest) := by
  have hbyte : ∀ k < 0x100, n < k → (UInt8.ofNat n).toNat = n := fun k hk hn =>
    UInt8.toNat_ofNat_of_lt' (show n < 0x100 by omega)
  cases e <;> simp only [encode] at h <;> split at h <;> cases h
  · rename_i hn
    simp [decodeHead, hbyte _ (by decide) hn]
  · rename_i hn
    have := UInt8.toNat_ofNat_of_lt' hn
    simp [decodeHead, this]
  · rename_i hn
    exact Utf8.decodeHead_encode hn rest
  · rename_i hn
    exact decodeUnits_utf16Units (fun u hu => ⟨_,_,rfl,toNat_unit hu⟩) hn rest
  · rename_i hn
    exact decodeUnits_utf16Units (fun u hu => ⟨_,_,rfl,toNat_unit hu⟩) hn rest

end Reading

section Codes

/-- The bytes of a code point end where another code point begins, in one way only. -/
theorem encode_append_inj (hm : e.encode m = some bytes) (hn : e.encode n = some bytes')
    (h : bytes ++ rest = bytes' ++ rest') : m = n ∧ rest = rest' := by
  have hread := decodeHead_encode hm rest
  rw [h, decodeHead_encode hn rest'] at hread
  obtain ⟨rfl,rfl⟩ := Prod.mk.inj (Option.some.inj hread)
  exact ⟨rfl,rfl⟩

theorem eq_of_isPrefix (hm : e.encode m = some bytes) (hn : e.encode n = some bytes')
    (h : bytes <+: bytes') : m = n := by
  obtain ⟨rest,hrest⟩ := h
  have happend : bytes ++ rest = bytes' ++ [] := by rw [hrest, List.append_nil]
  exact (encode_append_inj hm hn happend).1

/-- Texts with the same bytes are the same, as their first characters are. -/
theorem eq_of_flatMap_written {ms ns : List Nat} {buffer buffer' : e.Buffer}
    (hms : ∀ m ∈ ms, e.Represents m) (hns : ∀ n ∈ ns, e.Represents n)
    (h : (ms.flatMap fun m => e.written m buffer) = ns.flatMap fun n => e.written n buffer') :
    ms = ns := by
  have hne : ∀ k (b : e.Buffer), e.Represents k → e.written k b ≠ [] := by
    intro k b hk
    obtain ⟨bytes,hbytes⟩ := represents_iff.mp hk
    rw [written_eq hbytes]
    exact ne_nil_of_encode hbytes
  induction ms generalizing ns with
  | nil =>
    cases ns with
    | nil => rfl
    | cons n ns =>
      have hnil := (List.append_eq_nil_iff.mp (List.flatMap_cons ▸ h.symm)).1
      exact absurd hnil (hne n buffer' (hns n List.mem_cons_self))
  | cons m ms ih =>
    cases ns with
    | nil =>
      have hnil := (List.append_eq_nil_iff.mp (List.flatMap_cons ▸ h)).1
      exact absurd hnil (hne m buffer (hms m List.mem_cons_self))
    | cons n ns =>
      obtain ⟨hm,hms'⟩ := List.forall_mem_cons.mp hms
      obtain ⟨hn,hns'⟩ := List.forall_mem_cons.mp hns
      obtain ⟨bytes,hbytes⟩ := represents_iff.mp hm
      obtain ⟨bytes',hbytes'⟩ := represents_iff.mp hn
      rw [List.flatMap_cons, List.flatMap_cons, written_eq hbytes, written_eq hbytes'] at h
      obtain ⟨rfl,hrest⟩ := encode_append_inj hbytes hbytes' h
      rw [ih hms' hns' hrest]

/-- No byte is written just for the code points that an encoding does not represent. The others
have different codes, none of which is the beginning of another, so that texts can be told apart by
their bytes. -/
theorem write_uniquelyDecodable (e : Encoding) :
    (∀ n (buffer : e.Buffer),
      ((e.write n buffer).1 = 0 ↔ ¬ e.Represents n) ∧
      (e.Represents n → 1 ≤ (e.write n buffer).1 ∧ (e.write n buffer).1 ≤ e.maxLength)) ∧
    (∀ m n (buffer buffer' : e.Buffer), e.Represents m → e.Represents n →
      e.written m buffer <+: e.written n buffer' → m = n) ∧
    ∀ (ms ns : List Nat) (buffer buffer' : e.Buffer), (∀ m ∈ ms, e.Represents m) →
      (∀ n ∈ ns, e.Represents n) →
      (ms.flatMap fun m => e.written m buffer) = (ns.flatMap fun n => e.written n buffer') →
      ms = ns := by
  refine ⟨fun n buffer => ?_,fun m n buffer buffer' hm hn h => ?_,fun ms ns buffer buffer' =>
    eq_of_flatMap_written⟩
  · rw [fst_write, represents_iff]
    cases h : e.encode n with
    | none => simp
    | some bytes =>
      have hpos := List.length_pos_iff.mpr (ne_nil_of_encode h)
      simp [ne_nil_of_encode h, length_encode_le h]
      omega
  · obtain ⟨bytes,hbytes⟩ := represents_iff.mp hm
    obtain ⟨bytes',hbytes'⟩ := represents_iff.mp hn
    rw [written_eq hbytes, written_eq hbytes'] at h
    exact eq_of_isPrefix hbytes hbytes' h

/-- Both characters have the same first code unit. -/
theorem write_uniquelyDecodable_surrogatePair :
    let buffer : utf16le.Buffer := Vector.replicate 4 0
    utf16le.Represents 0x1F600 ∧ utf16le.Represents 0x1F601 ∧
      utf16le.written 0x1F600 buffer = [0x3D,0xD8,0x00,0xDE] ∧
      ¬ utf16le.written 0x1F600 buffer <+: utf16le.written 0x1F601 buffer := by
  intro buffer
  have hm : utf16le.Represents 0x1F600 := by decide
  have hn : utf16le.Represents 0x1F601 := by decide
  obtain ⟨-,hcode,-⟩ := write_uniquelyDecodable utf16le
  exact ⟨hm,hn,by decide,fun h => absurd (hcode _ _ buffer buffer hm hn h) (by decide)⟩

end Codes

end ByteAutomata.Encoding

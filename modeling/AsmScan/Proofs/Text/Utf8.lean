import AsmScan.Text.Utf8

/-!
Reading UTF-8. The strict reading inverts the encoding. The lossy reading does so on every text,
and whatever it reads without a replacement character is encoded as it stood.
-/

namespace AsmScan.Text

theorem toByteArray_eq (s : String) : s.toByteArray = (encode s).toByteArray := by
  rw [← String.utf8Encode_toList]
  rfl

theorem length_encode (s : String) : (encode s).length = s.utf8ByteSize := by
  rw [← List.size_toByteArray, ← toByteArray_eq]
  rfl

theorem decode?_eq_some_iff {bytes : Bytes} {s : String} :
    decode? bytes = some s ↔ encode s = bytes := by
  have array : (⟨bytes.toArray⟩ : ByteArray) = bytes.toByteArray :=
    ByteArray.ext List.data_toByteArray.symm
  rw [decode?, String.fromUTF8?, array]
  constructor
  · intro h
    split at h
    · obtain rfl := Option.some.inj h
      exact List.toByteArray_inj.mp (toByteArray_eq _).symm
    · exact absurd h (by simp)
  · rintro rfl
    have valid : (encode s).toByteArray.IsValidUTF8 := toByteArray_eq s ▸ s.isValidUTF8
    rw [dif_pos valid]
    exact congrArg some (String.toByteArray_inj.mp (toByteArray_eq s).symm)

theorem decode?_eq_none_iff {bytes : Bytes} : decode? bytes = none ↔ ∀ s, encode s ≠ bytes := by
  simp only [Option.eq_none_iff_forall_ne_some, ne_eq, decode?_eq_some_iff]

theorem toNat_val_ofNat {n : Nat} (h : n.isValidChar) : (Char.ofNat n).val.toNat = n := by
  rw [Char.ofNat, dif_pos h]
  rfl

theorem encodeChar_one {n : Nat} (h : n < 0x80) :
    String.utf8EncodeChar (Char.ofNat n) = [UInt8.ofNat n] := by
  have value := toNat_val_ofNat (n := n) (.inl (by omega))
  simp only [String.utf8EncodeChar, value]
  rw [if_pos (by omega)]

theorem encodeChar_two {n : Nat} (low : 0x80 ≤ n) (high : n < 0x800) :
    String.utf8EncodeChar (Char.ofNat n) =
      [UInt8.ofNat (n / 64 + 0xC0), UInt8.ofNat (n % 64 + 0x80)] := by
  have value := toNat_val_ofNat (n := n) (.inl (by omega))
  have first : n / 64 % 32 = n / 64 := by omega
  simp only [String.utf8EncodeChar, value]
  rw [if_neg (by omega), if_pos (by omega), first]

theorem encodeChar_three {n : Nat} (low : 0x800 ≤ n) (high : n < 0x10000) (valid : n.isValidChar) :
    String.utf8EncodeChar (Char.ofNat n) =
      [UInt8.ofNat (n / 4096 + 0xE0), UInt8.ofNat (n / 64 % 64 + 0x80),
        UInt8.ofNat (n % 64 + 0x80)] := by
  have value := toNat_val_ofNat valid
  have first : n / 4096 % 16 = n / 4096 := by omega
  simp only [String.utf8EncodeChar, value]
  rw [if_neg (by omega), if_neg (by omega), if_pos (by omega), first]

theorem encodeChar_four {n : Nat} (low : 0x10000 ≤ n) (high : n < 0x110000) :
    String.utf8EncodeChar (Char.ofNat n) =
      [UInt8.ofNat (n / 262144 + 0xF0), UInt8.ofNat (n / 4096 % 64 + 0x80),
        UInt8.ofNat (n / 64 % 64 + 0x80), UInt8.ofNat (n % 64 + 0x80)] := by
  have value := toNat_val_ofNat (n := n) (.inr (by omega))
  have first : n / 262144 % 8 = n / 262144 := by omega
  simp only [String.utf8EncodeChar, value]
  rw [if_neg (by omega), if_neg (by omega), if_neg (by omega), first]

theorem ofNat_eq {n : Nat} {b : UInt8} (h : n = b.toNat) : UInt8.ofNat n = b := by
  rw [h, UInt8.ofNat_toNat]

namespace Lead

variable {b : UInt8}

theorem of?_two (low : 0xC2 ≤ b.toNat) (high : b.toNat ≤ 0xDF) :
    Lead.of? b = some ⟨1, 0x80, 0xBF⟩ := by
  unfold Lead.of?
  simp only [UInt8.le_iff_toNat_le, UInt8.reduceToNat]
  rw [if_pos ⟨low, high⟩]

theorem of?_three (low : 0xE0 ≤ b.toNat) (high : b.toNat ≤ 0xEF) :
    Lead.of? b = some ⟨2, if b = 0xE0 then 0xA0 else 0x80, if b = 0xED then 0x9F else 0xBF⟩ := by
  unfold Lead.of?
  simp only [UInt8.le_iff_toNat_le, ← UInt8.toNat_inj, UInt8.reduceToNat]
  grind

theorem of?_four (low : 0xF0 ≤ b.toNat) (high : b.toNat ≤ 0xF4) :
    Lead.of? b = some ⟨3, if b = 0xF0 then 0x90 else 0x80, if b = 0xF4 then 0x8F else 0xBF⟩ := by
  unfold Lead.of?
  simp only [UInt8.le_iff_toNat_le, ← UInt8.toNat_inj, UInt8.reduceToNat]
  grind

theorem bounds_of? {lead : Lead} (h : Lead.of? b = some lead) :
    (0xC2 ≤ b.toNat ∧ b.toNat ≤ 0xDF) ∨ (0xE0 ≤ b.toNat ∧ b.toNat ≤ 0xEF) ∨
      (0xF0 ≤ b.toNat ∧ b.toNat ≤ 0xF4) := by
  unfold Lead.of? at h
  simp only [UInt8.le_iff_toNat_le, ← UInt8.toNat_inj, UInt8.reduceToNat] at h
  grind

variable {n : Nat} {low high t : UInt8} {rest : Bytes}

theorem continuation_zero : Lead.continuation ⟨0, low, high⟩ rest = [] := by
  rw [continuation]

theorem continuation_cons (hl : low.toNat ≤ t.toNat) (hh : t.toNat ≤ high.toNat) :
    Lead.continuation ⟨n + 1, low, high⟩ (t :: rest) =
      t :: Lead.continuation ⟨n, 0x80, 0xBF⟩ rest := by
  rw [continuation, if_pos ⟨UInt8.le_iff_toNat_le.mpr hl, UInt8.le_iff_toNat_le.mpr hh⟩]

theorem continuation_cons_tail (ht : 0x80 ≤ t.toNat ∧ t.toNat ≤ 0xBF) :
    Lead.continuation ⟨n + 1, 0x80, 0xBF⟩ (t :: rest) =
      t :: Lead.continuation ⟨n, 0x80, 0xBF⟩ rest :=
  continuation_cons ht.1 ht.2

theorem exists_continuation
    (full : (Lead.continuation ⟨n + 1, low, high⟩ rest).length = n + 1) :
    ∃ t after, low.toNat ≤ t.toNat ∧ t.toNat ≤ high.toNat ∧
      Lead.continuation ⟨n + 1, low, high⟩ rest = t :: Lead.continuation ⟨n, 0x80, 0xBF⟩ after ∧
      (Lead.continuation ⟨n, 0x80, 0xBF⟩ after).length = n := by
  cases rest with
  | nil => exact absurd full (by simp [continuation])
  | cons t after =>
    rw [continuation] at full ⊢
    split at full
    · next inside =>
      rw [if_pos inside]
      exact ⟨t, after, UInt8.le_iff_toNat_le.mp inside.1, UInt8.le_iff_toNat_le.mp inside.2, rfl,
        by simpa using full⟩
    · exact absurd full (by simp)

theorem continuation_prefix (lead : Lead) (rest : Bytes) : lead.continuation rest <+: rest := by
  obtain ⟨n, low, high⟩ := lead
  induction n generalizing low high rest with
  | zero =>
    rw [continuation_zero]
    exact List.nil_prefix
  | succ n ih =>
    cases rest with
    | nil => exact List.prefix_rfl
    | cons t after =>
      rw [continuation]
      split
      · exact (List.prefix_cons_inj t).mpr (ih _ _ _)
      · exact List.nil_prefix

end Lead

theorem encodeChar_assemble_two {b t : UInt8} (hb : 0xC2 ≤ b.toNat ∧ b.toNat ≤ 0xDF)
    (ht : 0x80 ≤ t.toNat ∧ t.toNat ≤ 0xBF) : String.utf8EncodeChar (assemble b [t]) = [b, t] := by
  have value : assemble b [t] = Char.ofNat (b.toNat % 32 * 64 + t.toNat % 64) := rfl
  rw [value, encodeChar_two (by omega) (by omega), ofNat_eq (b := b) (by omega),
    ofNat_eq (b := t) (by omega)]

theorem encodeChar_assemble_three {b t u : UInt8} (hb : 0xE0 ≤ b.toNat ∧ b.toNat ≤ 0xEF)
    (ht : 0x80 ≤ t.toNat ∧ t.toNat ≤ 0xBF) (hu : 0x80 ≤ u.toNat ∧ u.toNat ≤ 0xBF)
    (overlong : b.toNat = 0xE0 → 0xA0 ≤ t.toNat) (surrogate : b.toNat = 0xED → t.toNat ≤ 0x9F) :
    String.utf8EncodeChar (assemble b [t, u]) = [b, t, u] := by
  have value : assemble b [t, u] =
      Char.ofNat ((b.toNat % 16 * 64 + t.toNat % 64) * 64 + u.toNat % 64) := by
    simp [assemble]
  have valid : ((b.toNat % 16 * 64 + t.toNat % 64) * 64 + u.toNat % 64).isValidChar := by
    rw [Nat.isValidChar]
    omega
  rw [value, encodeChar_three (by omega) (by omega) valid, ofNat_eq (b := b) (by omega),
    ofNat_eq (b := t) (by omega), ofNat_eq (b := u) (by omega)]

theorem encodeChar_assemble_four {b t u v : UInt8} (hb : 0xF0 ≤ b.toNat ∧ b.toNat ≤ 0xF4)
    (ht : 0x80 ≤ t.toNat ∧ t.toNat ≤ 0xBF) (hu : 0x80 ≤ u.toNat ∧ u.toNat ≤ 0xBF)
    (hv : 0x80 ≤ v.toNat ∧ v.toNat ≤ 0xBF)
    (overlong : b.toNat = 0xF0 → 0x90 ≤ t.toNat) (beyond : b.toNat = 0xF4 → t.toNat ≤ 0x8F) :
    String.utf8EncodeChar (assemble b [t, u, v]) = [b, t, u, v] := by
  have value : assemble b [t, u, v] = Char.ofNat
      (((b.toNat % 8 * 64 + t.toNat % 64) * 64 + u.toNat % 64) * 64 + v.toNat % 64) := by
    simp [assemble]
  rw [value, encodeChar_four (by omega) (by omega), ofNat_eq (b := b) (by omega),
    ofNat_eq (b := t) (by omega), ofNat_eq (b := u) (by omega), ofNat_eq (b := v) (by omega)]

theorem range_iff {b t : UInt8} (special last low high : UInt8) (hl : 0x80 ≤ low.toNat)
    (hh : high.toNat ≤ 0xBF) :
    (if b = special then low else 0x80).toNat ≤ t.toNat ∧
        t.toNat ≤ (if b = last then high else 0xBF).toNat ↔
      (0x80 ≤ t.toNat ∧ t.toNat ≤ 0xBF) ∧ (b.toNat = special.toNat → low.toNat ≤ t.toNat) ∧
        (b.toNat = last.toNat → t.toNat ≤ high.toNat) := by
  rw [UInt8.toNat_inj, UInt8.toNat_inj]
  split <;> split <;> simp_all <;> omega

theorem encodeChar_assemble {b : UInt8} {lead : Lead} {rest : Bytes} (hl : Lead.of? b = some lead)
    (full : (lead.continuation rest).length = lead.length) :
    String.utf8EncodeChar (assemble b (lead.continuation rest)) = b :: lead.continuation rest := by
  obtain hb | hb | hb := Lead.bounds_of? hl
  · obtain rfl := Option.some.inj ((Lead.of?_two hb.1 hb.2).symm.trans hl)
    obtain ⟨t, after, low, high, bytes, -⟩ := Lead.exists_continuation full
    rw [bytes, Lead.continuation_zero]
    exact encodeChar_assemble_two hb ⟨low, high⟩
  · obtain rfl := Option.some.inj ((Lead.of?_three hb.1 hb.2).symm.trans hl)
    obtain ⟨t, after, low, high, bytes, full⟩ := Lead.exists_continuation full
    obtain ⟨u, after, hu, hu', bytes', -⟩ := Lead.exists_continuation full
    obtain ⟨ht, overlong, surrogate⟩ :=
      (range_iff 0xE0 0xED _ _ (by decide) (by decide)).mp ⟨low, high⟩
    rw [bytes, bytes', Lead.continuation_zero]
    exact encodeChar_assemble_three hb ht ⟨hu, hu'⟩ overlong surrogate
  · obtain rfl := Option.some.inj ((Lead.of?_four hb.1 hb.2).symm.trans hl)
    obtain ⟨t, after, low, high, bytes, full⟩ := Lead.exists_continuation full
    obtain ⟨u, after, hu, hu', bytes', full⟩ := Lead.exists_continuation full
    obtain ⟨v, after, hv, hv', bytes'', -⟩ := Lead.exists_continuation full
    obtain ⟨ht, overlong, beyond⟩ :=
      (range_iff 0xF0 0xF4 _ _ (by decide) (by decide)).mp ⟨low, high⟩
    rw [bytes, bytes', bytes'', Lead.continuation_zero]
    exact encodeChar_assemble_four hb ht ⟨hu, hu'⟩ ⟨hv, hv'⟩ overlong beyond

theorem encode_injective {s t : String} (h : encode s = encode t) : s = t :=
  Option.some.inj ((decode?_eq_some_iff.mpr h).symm.trans (decode?_eq_some_iff.mpr rfl))

theorem encodeChar_injective {c d : Char} (h : String.utf8EncodeChar c = String.utf8EncodeChar d) :
    c = d := by
  have same : String.ofList [c] = String.ofList [d] := encode_injective (by simp [encode, h])
  simpa using congrArg String.toList same

theorem exists_byte (n : Nat) (h : n < 256) : ∃ b : UInt8, n = b.toNat :=
  ⟨UInt8.ofNat n, (UInt8.toNat_ofNat_of_lt' h).symm⟩

theorem exists_lead {c : Char} (h : 0x80 ≤ c.toNat) :
    ∃ b lead tail, String.utf8EncodeChar c = b :: tail ∧ Lead.of? b = some lead ∧
      tail.length = lead.length ∧ ∀ rest, lead.continuation (tail ++ rest) = tail := by
  have valid : c.toNat < 0xD800 ∨ 0xDFFF < c.toNat ∧ c.toNat < 0x110000 := c.valid
  generalize hn : c.toNat = n at h valid
  obtain rfl : Char.ofNat n = c := by rw [← hn, Char.ofNat_toNat]
  obtain ⟨v, hv⟩ := exists_byte (n % 64 + 0x80) (by omega)
  have last : 0x80 ≤ v.toNat ∧ v.toNat ≤ 0xBF := by omega
  obtain ⟨u, hu⟩ := exists_byte (n / 64 % 64 + 0x80) (by omega)
  have third : 0x80 ≤ u.toNat ∧ u.toNat ≤ 0xBF := by omega
  by_cases two : n < 0x800
  · obtain ⟨b, hb⟩ := exists_byte (n / 64 + 0xC0) (by omega)
    refine ⟨b, _, [v], ?_, Lead.of?_two (by omega) (by omega), rfl, fun rest => ?_⟩
    · rw [encodeChar_two h two, ofNat_eq hb, ofNat_eq hv]
    · rw [List.singleton_append, Lead.continuation_cons_tail last, Lead.continuation_zero]
  by_cases three : n < 0x10000
  · obtain ⟨b, hb⟩ := exists_byte (n / 4096 + 0xE0) (by omega)
    have first := (range_iff (b := b) (t := u) 0xE0 0xED 0xA0 0x9F (by decide) (by decide)).mpr
      ⟨third, fun e => by simp at e ⊢; omega, fun e => by simp at e ⊢; omega⟩
    refine ⟨b, _, [u, v], ?_, Lead.of?_three (by omega) (by omega), rfl, fun rest => ?_⟩
    · rw [encodeChar_three (by omega) three valid, ofNat_eq hb, ofNat_eq hu, ofNat_eq hv]
    · rw [List.cons_append, Lead.continuation_cons first.1 first.2, List.singleton_append,
        Lead.continuation_cons_tail last, Lead.continuation_zero]
  · obtain ⟨b, hb⟩ := exists_byte (n / 262144 + 0xF0) (by omega)
    obtain ⟨t, ht⟩ := exists_byte (n / 4096 % 64 + 0x80) (by omega)
    have first := (range_iff (b := b) (t := t) 0xF0 0xF4 0x90 0x8F (by decide) (by decide)).mpr
      ⟨⟨by omega, by omega⟩, fun e => by simp at e ⊢; omega, fun e => by simp at e ⊢; omega⟩
    refine ⟨b, _, [t, u, v], ?_, Lead.of?_four (by omega) (by omega), rfl, fun rest => ?_⟩
    · rw [encodeChar_four (by omega) (by omega), ofNat_eq hb, ofNat_eq ht, ofNat_eq hu, ofNat_eq hv]
    · rw [List.cons_append, Lead.continuation_cons first.1 first.2, List.cons_append,
        Lead.continuation_cons_tail third, List.singleton_append,
        Lead.continuation_cons_tail last, Lead.continuation_zero]

theorem lossyChars_ascii {b : UInt8} (rest : Bytes) (h : b < 0x80) :
    lossyChars (b :: rest) = Char.ofNat b.toNat :: lossyChars rest := by
  rw [lossyChars, if_pos h]

theorem lossyChars_lead {b : UInt8} {lead : Lead} (rest : Bytes) (hl : Lead.of? b = some lead) :
    lossyChars (b :: rest) =
      (if (lead.continuation rest).length = lead.length then assemble b (lead.continuation rest)
        else replacement) :: lossyChars (rest.drop (lead.continuation rest).length) := by
  have beyond : ¬b < 0x80 := by
    have bounds := Lead.bounds_of? hl
    simp only [UInt8.lt_iff_toNat_lt, UInt8.reduceToNat]
    omega
  rw [lossyChars, if_neg beyond, hl]

theorem lossyChars_encodeChar_append (c : Char) (rest : Bytes) :
    lossyChars (String.utf8EncodeChar c ++ rest) = c :: lossyChars rest := by
  by_cases ascii : c.toNat < 0x80
  · obtain ⟨b, hb⟩ := exists_byte c.toNat (by omega)
    have single : String.utf8EncodeChar c = [b] := by
      rw [← Char.ofNat_toNat c, encodeChar_one ascii, ofNat_eq hb]
    have low : b < 0x80 := by
      rw [UInt8.lt_iff_toNat_lt, ← hb]
      exact ascii
    rw [single, List.singleton_append, lossyChars_ascii rest low, ← hb, Char.ofNat_toNat]
  · obtain ⟨b, lead, tail, bytes, hl, full, whole⟩ := exists_lead (Nat.le_of_not_lt ascii)
    have made := @encodeChar_assemble b lead (tail ++ rest) hl (by rw [whole, full])
    rw [whole, ← bytes] at made
    rw [bytes, List.cons_append, lossyChars_lead _ hl, whole, if_pos full, List.drop_left,
      encodeChar_injective made]

theorem lossy_encode (s : String) : lossy (encode s) = s := by
  have chars (cs : List Char) : lossyChars (cs.flatMap String.utf8EncodeChar) = cs := by
    induction cs with
    | nil => rw [List.flatMap_nil, lossyChars]
    | cons c cs ih => rw [List.flatMap_cons, lossyChars_encodeChar_append, ih]
  rw [lossy, encode, chars, String.ofList_toList]

theorem flatMap_lossyChars {bytes : Bytes} (h : replacement ∉ lossyChars bytes) :
    (lossyChars bytes).flatMap String.utf8EncodeChar = bytes := by
  induction bytes using lossyChars.induct with
  | case1 => rw [lossyChars, List.flatMap_nil]
  | case2 b rest low ih =>
    rw [lossyChars_ascii rest low] at h ⊢
    rw [List.flatMap_cons, encodeChar_one (UInt8.lt_iff_toNat_lt.mp low), UInt8.ofNat_toNat,
      ih fun hr => h (List.mem_cons_of_mem _ hr)]
    rfl
  | case3 b rest high none ih =>
    rw [lossyChars, if_neg high, none] at h
    exact absurd List.mem_cons_self h
  | case4 b rest high lead hl tail ih =>
    rw [lossyChars_lead rest hl] at h ⊢
    have tailRead := ih fun hr => h (List.mem_cons_of_mem _ hr)
    split at h
    · next full =>
      have taken := List.prefix_iff_eq_append.mp (lead.continuation_prefix rest)
      rw [if_pos full, List.flatMap_cons, encodeChar_assemble hl full, tailRead, List.cons_append,
        taken]
    · exact absurd List.mem_cons_self h

/-- What is read without a replacement character is a text as it stands. -/
theorem encode_lossy {bytes : Bytes} (h : replacement ∉ (lossy bytes).toList) :
    encode (lossy bytes) = bytes := by
  rw [lossy, String.toList_ofList] at h
  rw [encode, lossy, String.toList_ofList, flatMap_lossyChars h]

end AsmScan.Text

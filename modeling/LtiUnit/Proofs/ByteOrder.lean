import LtiUnit.Files.Archive

/-!
# LtiUnit.Proofs.ByteOrder

The order of texts is that of their bytes. A character of a smaller number has an encoding that is
smaller at the first byte where the two differ, and neither is the beginning of the other
(`encode_lt`), so what follows them does not count.

The bytes of a text are read back as that text (`lossy_bytes`).
-/

namespace LtiUnit
namespace Text

theorem bytes_eq (s : String) : bytes s = s.toList.flatMap String.utf8EncodeChar := by
  have h : s.toUTF8 = s.toList.utf8Encode := by
    rw [← String.toByteArray_ofList, String.ofList_toList]
    rfl
  rw [bytes, h, List.utf8Encode, List.toList_data_toByteArray]

/-! ## Encodings of characters -/

theorem byte_lt {m n : Nat} (h : m < n) (hn : n < 256) : UInt8.ofNat m < UInt8.ofNat n := by
  rw [UInt8.lt_iff_toNat_lt, UInt8.toNat_ofNat', UInt8.toNat_ofNat']
  omega

/-- Bytes compare as the numbers that they are made of. -/
theorem ofNat_append_lt {ms ns : List Nat} (hlength : ms.length = ns.length)
    (hns : ∀ n ∈ ns, n < 256) (h : ms < ns) (xs ys : List UInt8) :
    ms.map UInt8.ofNat ++ xs < ns.map UInt8.ofNat ++ ys := by
  induction ms generalizing ns with
  | nil =>
    cases ns with
    | nil => exact absurd h (List.lt_irrefl [])
    | cons n ns => cases hlength
  | cons m ms ih =>
    cases ns with
    | nil => cases hlength
    | cons n ns =>
      have hn : n < 256 := hns n (List.mem_cons_self ..)
      rcases List.cons_lt_cons_iff.1 h with hlt | ⟨rfl, hlt⟩
      · exact List.cons_lt_cons_iff.2 (.inl (byte_lt hlt hn))
      · have hrest := ih (Nat.succ.inj hlength) (fun k hk => hns k (List.mem_cons_of_mem _ hk)) hlt
        exact List.cons_lt_cons_iff.2 (.inr ⟨rfl, hrest⟩)

/-- The numbers of the bytes of a character. -/
def digits (n : Nat) : List Nat :=
  if n ≤ 0x7f then [n]
  else if n ≤ 0x7ff then [n / 64 % 32 + 192, n % 64 + 128]
  else if n ≤ 0xffff then [n / 4096 % 16 + 224, n / 64 % 64 + 128, n % 64 + 128]
  else [n / 262144 % 8 + 240, n / 4096 % 64 + 128, n / 64 % 64 + 128, n % 64 + 128]

theorem encode_eq (c : Char) : String.utf8EncodeChar c = (digits c.toNat).map UInt8.ofNat := by
  by_cases h1 : c.toNat ≤ 0x7f
  · simp [String.utf8EncodeChar, digits, h1]
  · by_cases h2 : c.toNat ≤ 0x7ff
    · simp [String.utf8EncodeChar, digits, h1, h2]
    · by_cases h3 : c.toNat ≤ 0xffff
      · simp [String.utf8EncodeChar, digits, h1, h2, h3]
      · simp [String.utf8EncodeChar, digits, h1, h2, h3]

theorem digits_lt_256 (n : Nat) : ∀ k ∈ digits n, k < 256 := by
  unfold digits
  split
  · simp only [List.mem_singleton, forall_eq]
    omega
  · split
    · simp only [List.mem_cons, List.not_mem_nil, or_false, forall_eq_or_imp, forall_eq]
      omega
    · split
      · simp only [List.mem_cons, List.not_mem_nil, or_false, forall_eq_or_imp, forall_eq]
        omega
      · simp only [List.mem_cons, List.not_mem_nil, or_false, forall_eq_or_imp, forall_eq]
        omega

/-- A larger number has more bytes, or as many that are larger in the order of lists. -/
theorem digits_lt {m n : Nat} (h : m < n) (hn : n < 0x110000) :
    (digits m).length = (digits n).length ∧ digits m < digits n ∨
      ∃ a ms b ns, digits m = a :: ms ∧ digits n = b :: ns ∧ a < b := by
  by_cases hn1 : n ≤ 0x7f
  · left
    have hm1 : m ≤ 0x7f := by omega
    simp [digits, hm1, hn1, List.cons_lt_cons_iff, h]
  · by_cases hn2 : n ≤ 0x7ff
    · by_cases hm1 : m ≤ 0x7f
      · right
        simp only [digits, hm1, hn1, hn2, if_true, if_false]
        exact ⟨_, _, _, _, rfl, rfl, by omega⟩
      · left
        have hm2 : m ≤ 0x7ff := by omega
        simp only [digits, hm1, hm2, hn1, hn2, if_true, if_false, List.cons_lt_cons_iff,
          List.length_cons, true_and]
        omega
    · by_cases hn3 : n ≤ 0xffff
      · by_cases hm1 : m ≤ 0x7f
        · right
          simp only [digits, hm1, hn1, hn2, hn3, if_true, if_false]
          exact ⟨_, _, _, _, rfl, rfl, by omega⟩
        · by_cases hm2 : m ≤ 0x7ff
          · right
            simp only [digits, hm1, hm2, hn1, hn2, hn3, if_true, if_false]
            exact ⟨_, _, _, _, rfl, rfl, by omega⟩
          · left
            have hm3 : m ≤ 0xffff := by omega
            simp only [digits, hm1, hm2, hm3, hn1, hn2, hn3, if_true, if_false,
              List.cons_lt_cons_iff, List.length_cons, true_and]
            omega
      · by_cases hm1 : m ≤ 0x7f
        · right
          simp only [digits, hm1, hn1, hn2, hn3, if_true, if_false]
          exact ⟨_, _, _, _, rfl, rfl, by omega⟩
        · by_cases hm2 : m ≤ 0x7ff
          · right
            simp only [digits, hm1, hm2, hn1, hn2, hn3, if_true, if_false]
            exact ⟨_, _, _, _, rfl, rfl, by omega⟩
          · by_cases hm3 : m ≤ 0xffff
            · right
              simp only [digits, hm1, hm2, hm3, hn1, hn2, hn3, if_true, if_false]
              exact ⟨_, _, _, _, rfl, rfl, by omega⟩
            · left
              have hm64 : m / 64 / 64 = m / 4096 := Nat.div_div_eq_div_mul m 64 64
              have hn64 : n / 64 / 64 = n / 4096 := Nat.div_div_eq_div_mul n 64 64
              have hm4096 : m / 4096 / 64 = m / 262144 := Nat.div_div_eq_div_mul m 4096 64
              have hn4096 : n / 4096 / 64 = n / 262144 := Nat.div_div_eq_div_mul n 4096 64
              have hm8 : m / 262144 % 8 = m / 262144 := Nat.mod_eq_of_lt (by omega)
              have hn8 : n / 262144 % 8 = n / 262144 := Nat.mod_eq_of_lt (by omega)
              simp only [digits, hm1, hm2, hm3, hn1, hn2, hn3, if_false, List.cons_lt_cons_iff,
                List.length_cons, true_and, hm8, hn8]
              omega

/-! ## Bytes read back -/

theorem toNat_lt (c : Char) : c.toNat < 0xD800 ∨ 0xDFFF < c.toNat ∧ c.toNat < 0x110000 := by
  have hvalid := c.valid
  simp only [UInt32.isValidChar, Nat.isValidChar] at hvalid
  change c.val.toNat < _ ∨ _ < c.val.toNat ∧ c.val.toNat < _
  omega

theorem decodeFrom_begin {b low high more : Nat} {bits : Nat}
    (h : Lead.ofByte? b = some ⟨bits, low, high, more + 1⟩) (rest : List Nat) :
    decodeFrom .between (b :: rest) = decodeFrom (.inside bits low high (more + 1)) rest := by
  simp [decodeFrom, begin, h]

theorem decodeFrom_last {b bits low high : Nat} (h : low ≤ b ∧ b ≤ high) (rest : List Nat) :
    decodeFrom (.inside bits low high 1) (b :: rest) =
      Char.ofNat (bits * 64 + (b - 0x80)) :: decodeFrom .between rest := by
  rw [decodeFrom, if_pos h]
  rfl

theorem decodeFrom_more {b bits low high more : Nat} (h : low ≤ b ∧ b ≤ high) (rest : List Nat) :
    decodeFrom (.inside bits low high (more + 2)) (b :: rest) =
      decodeFrom (.inside (bits * 64 + (b - 0x80)) 0x80 0xBF (more + 1)) rest := by
  rw [decodeFrom, if_pos h]
  exact if_neg (by omega)

/-- The bytes of a character are read as that character, and nothing else is. -/
theorem decodeFrom_digits (c : Char) (rest : List Nat) :
    decodeFrom .between (digits c.toNat ++ rest) = c :: decodeFrom .between rest := by
  have hvalid := toNat_lt c
  have hchar : Char.ofNat c.toNat = c := Char.ofNat_toNat c
  generalize c.toNat = n at hvalid hchar
  -- the bits of a first byte, and those of the first two
  have h64 : n / 64 / 64 = n / 4096 := Nat.div_div_eq_div_mul n 64 64
  have h4096 : n / 4096 / 64 = n / 262144 := Nat.div_div_eq_div_mul n 4096 64
  unfold digits
  split
  · have hlead : Lead.ofByte? n = some ⟨n, 0, 0, 0⟩ := if_pos (by omega)
    simp [decodeFrom, begin, hlead, hchar]
  · split
    · have hlead : Lead.ofByte? (n / 64 % 32 + 192) =
          some ⟨n / 64 % 32 + 192 - 0xC0, 0x80, 0xBF, 1⟩ := by
        rw [Lead.ofByte?, if_neg (by omega), if_neg (by omega), if_pos (by omega)]
      have hbits : (n / 64 % 32 + 192 - 0xC0) * 64 + (n % 64 + 128 - 0x80) = n := by omega
      rw [List.cons_append, List.singleton_append, decodeFrom_begin hlead,
        decodeFrom_last (by omega), hbits, hchar]
    · split
      · have hlead : Lead.ofByte? (n / 4096 % 16 + 224) =
            some ⟨n / 4096 % 16 + 224 - 0xE0, if n / 4096 % 16 + 224 = 0xE0 then 0xA0 else 0x80,
              if n / 4096 % 16 + 224 = 0xED then 0x9F else 0xBF, 2⟩ := by
          rw [Lead.ofByte?, if_neg (by omega), if_neg (by omega), if_neg (by omega),
            if_pos (by omega)]
        have hsecond : (if n / 4096 % 16 + 224 = 0xE0 then 0xA0 else 0x80) ≤ n / 64 % 64 + 128 ∧
            n / 64 % 64 + 128 ≤ if n / 4096 % 16 + 224 = 0xED then 0x9F else 0xBF := by
          split <;> split <;> omega
        have hbits : ((n / 4096 % 16 + 224 - 0xE0) * 64 + (n / 64 % 64 + 128 - 0x80)) * 64 +
            (n % 64 + 128 - 0x80) = n := by omega
        rw [List.cons_append, List.cons_append, List.singleton_append, decodeFrom_begin hlead,
          decodeFrom_more hsecond, decodeFrom_last (by omega), hbits, hchar]
      · have hlead : Lead.ofByte? (n / 262144 % 8 + 240) =
            some ⟨n / 262144 % 8 + 240 - 0xF0,
              if n / 262144 % 8 + 240 = 0xF0 then 0x90 else 0x80,
              if n / 262144 % 8 + 240 = 0xF4 then 0x8F else 0xBF, 3⟩ := by
          rw [Lead.ofByte?, if_neg (by omega), if_neg (by omega), if_neg (by omega),
            if_neg (by omega), if_pos (by omega)]
        have hsecond : (if n / 262144 % 8 + 240 = 0xF0 then 0x90 else 0x80) ≤
              n / 4096 % 64 + 128 ∧
            n / 4096 % 64 + 128 ≤ if n / 262144 % 8 + 240 = 0xF4 then 0x8F else 0xBF := by
          split <;> split <;> omega
        have hbits : (((n / 262144 % 8 + 240 - 0xF0) * 64 + (n / 4096 % 64 + 128 - 0x80)) * 64 +
            (n / 64 % 64 + 128 - 0x80)) * 64 + (n % 64 + 128 - 0x80) = n := by omega
        rw [List.cons_append, List.cons_append, List.cons_append, List.singleton_append,
          decodeFrom_begin hlead, decodeFrom_more hsecond, decodeFrom_more (by omega),
          decodeFrom_last (by omega), hbits, hchar]

theorem lossy_bytes (s : String) : lossy (bytes s) = s := by
  have hdecode (cs : List Char) :
      decodeFrom .between ((cs.flatMap String.utf8EncodeChar).map UInt8.toNat) = cs := by
    induction cs with
    | nil => rfl
    | cons c cs ih =>
      have hbytes : (String.utf8EncodeChar c).map UInt8.toNat = digits c.toNat := by
        rw [encode_eq, List.map_map]
        refine (List.map_congr_left fun k hk => ?_).trans (List.map_id _)
        exact UInt8.toNat_ofNat_of_lt' (digits_lt_256 _ k hk)
      rw [List.flatMap_cons, List.map_append, hbytes, decodeFrom_digits, ih]
  rw [lossy, bytes_eq, hdecode, String.ofList_toList]

/-! ## The order of bytes -/

theorem encode_lt {c d : Char} (h : c < d) (xs ys : List UInt8) :
    String.utf8EncodeChar c ++ xs < String.utf8EncodeChar d ++ ys := by
  have hmax : d.toNat < 0x110000 := by
    have hvalid := d.valid
    simp only [UInt32.isValidChar, Nat.isValidChar] at hvalid
    change d.val.toNat < _
    omega
  have hlt : c.toNat < d.toNat := h
  rw [encode_eq, encode_eq]
  rcases digits_lt hlt hmax with ⟨hlength, hlt⟩ | ⟨a, ms, b, ns, hm, hn, hlt⟩
  · exact ofNat_append_lt hlength (digits_lt_256 _) hlt xs ys
  · have hb : b < 256 := digits_lt_256 d.toNat b (by rw [hn]; exact List.mem_cons_self ..)
    rw [hm, hn]
    exact List.cons_lt_cons_iff.2 (.inl (byte_lt hlt hb))

/-! ## Texts -/

theorem append_lt_append {xs ys : List UInt8} (zs : List UInt8) (h : xs < ys) :
    zs ++ xs < zs ++ ys := by
  induction zs with
  | nil => exact h
  | cons z zs ih => exact List.cons_lt_cons_iff.2 (.inr ⟨rfl, ih⟩)

theorem flatMap_encode_lt {cs ds : List Char} (h : cs < ds) :
    cs.flatMap String.utf8EncodeChar < ds.flatMap String.utf8EncodeChar := by
  induction cs generalizing ds with
  | nil =>
    cases ds with
    | nil => exact absurd h (List.lt_irrefl [])
    | cons d ds =>
      obtain ⟨b, bs, hb⟩ := List.exists_cons_of_ne_nil (String.utf8EncodeChar_ne_nil (c := d))
      rw [List.flatMap_nil, List.flatMap_cons, hb]
      exact List.nil_lt_cons _ _
  | cons c cs ih =>
    cases ds with
    | nil => exact absurd h (List.not_lt_nil _)
    | cons d ds =>
      rw [List.flatMap_cons, List.flatMap_cons]
      rcases List.cons_lt_cons_iff.1 h with hlt | ⟨rfl, hlt⟩
      · exact encode_lt hlt _ _
      · exact append_lt_append _ (ih hlt)

/-- Texts in their order are in the order of their bytes. -/
theorem bytes_lt {s t : String} (h : s < t) : bytes s < bytes t := by
  rw [bytes_eq, bytes_eq]
  exact flatMap_encode_lt (String.lt_iff.1 h)

end Text
end LtiUnit

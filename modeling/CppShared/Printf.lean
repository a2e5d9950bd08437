/-
# The conversion `d` of `printf`

`zeroPadded w v` is the text of an `int` for `%0wd`: the sign, and the digits behind as
many zeros as it takes to fill `w` characters.  `%d` is the case `w = 0`.  `readInt` reads
such a text back.
-/
import CppShared.Socket

namespace Printf

/-- The text for `%0wd`. -/
def zeroPadded (w : ℕ) (v : ℤ) : Str :=
  if v < 0 then 45 :: (decimal v.natAbs).leftpad (w - 1) 48
  else (decimal v.natAbs).leftpad w 48

/-- The value of a text of digits. -/
def readDigits (text : Str) : ℕ := text.foldl (fun value b => 10 * value + (b.toNat - 48)) 0

/-- The value of a text of digits that may have a sign in front. -/
def readInt (text : Str) : ℤ :=
  if text.head? = some 45 then -(readDigits text.tail : ℤ) else readDigits text

/-! ## How long the text is -/

/-- A number from `10 ^ k` on has more than `k` digits. -/
theorem lt_length_decimal {n k : ℕ} (hk : 0 < k) (hn : 10 ^ k ≤ n) : k < (decimal n).length := by
  rw [decimal, List.length_map]
  by_contra hle
  have hlt := (Nat.length_toDigits_le_iff (by decide) hk).mp (not_lt.mp hle)
  omega

/-- A text without a sign fills the width, or is as long as the number. -/
theorem length_zeroPadded {w : ℕ} {v : ℤ} (hv : 0 ≤ v) :
    (zeroPadded w v).length = max w (decimal v.natAbs).length := by
  rw [zeroPadded, if_neg (not_lt.mpr hv)]
  exact List.length_leftpad

/-- A number that fits fills the width. -/
theorem length_zeroPadded_of_lt {w : ℕ} {v : ℤ} (hw : 0 < w) (hv : 0 ≤ v)
    (hlt : v.natAbs < 10 ^ w) : (zeroPadded w v).length = w := by
  have hlen := Socket.length_decimal_le hw hlt
  rw [length_zeroPadded hv]
  omega

/-- The sign of a negative number takes one of the characters, if there are enough. -/
theorem length_zeroPadded_of_neg {w : ℕ} {v : ℤ} (hv : v < 0) :
    (zeroPadded w v).length = 1 + max (w - 1) (decimal v.natAbs).length := by
  rw [zeroPadded, if_pos hv, List.length_cons, List.length_leftpad, Nat.add_comm]

/-! ## What the text says -/

/-- There is no zero byte in the text. -/
theorem zero_notMem_zeroPadded (w : ℕ) (v : ℤ) : 0 ∉ zeroPadded w v := by
  have hdigits : ∀ k, 0 ∉ (decimal v.natAbs).leftpad k 48 := by
    intro k hmem
    rcases List.mem_append.mp hmem with hpad | hdigit
    · exact absurd (List.eq_of_mem_replicate hpad) (by decide)
    · exact absurd rfl (Socket.ne_zero_of_mem_decimal hdigit)
  unfold zeroPadded
  split_ifs
  · rw [List.mem_cons]
    exact not_or.mpr ⟨by decide, hdigits _⟩
  · exact hdigits _

theorem readDigits_decimal (n : ℕ) : readDigits (decimal n) = n := by
  have hdigit : ∀ c ∈ Nat.toDigits 10 n, c.toUInt8.toNat - 48 = c.toNat - 48 := by
    intro c hc
    have hrange := Socket.val_of_mem_toDigits hc
    show c.val.toNat % 256 - 48 = c.val.toNat - 48
    omega
  have hread : readDigits (decimal n) = Nat.ofDigitChars 10 (Nat.toDigits 10 n) 0 := by
    rw [readDigits, decimal, List.foldl_map, Nat.ofDigitChars_eq_foldl]
    apply List.foldl_ext
    intro value c hc
    rw [hdigit c hc]
    rfl
  rw [hread, Nat.ofDigitChars_ten_toDigits]

/-- Zeros in front change nothing. -/
theorem readDigits_leftpad (w : ℕ) (text : Str) :
    readDigits (text.leftpad w 48) = readDigits text := by
  have hzeros : ∀ k, readDigits (List.replicate k 48 ++ text) = readDigits text := by
    intro k
    induction k with
    | zero => rfl
    | succ k ih =>
        rw [List.replicate_succ, List.cons_append]
        exact ih
  exact hzeros _

/-- **The text is read back.** -/
theorem readInt_zeroPadded (w : ℕ) (v : ℤ) : readInt (zeroPadded w v) = v := by
  unfold zeroPadded
  split_ifs with hneg
  · have hread : readInt (45 :: (decimal v.natAbs).leftpad (w - 1) 48) =
        -(readDigits ((decimal v.natAbs).leftpad (w - 1) 48) : ℤ) := rfl
    rw [hread, readDigits_leftpad, readDigits_decimal]
    omega
  · have hhead : ((decimal v.natAbs).leftpad w 48).head? ≠ some 45 := by
      intro hminus
      have hmem := List.mem_of_head? hminus
      rcases List.mem_append.mp hmem with hzero | hdigit
      · exact absurd (List.eq_of_mem_replicate hzero) (by decide)
      · have hrange := Socket.toNat_of_mem_decimal hdigit
        exact absurd hrange.1 (by decide)
    rw [readInt, if_neg hhead, readDigits_leftpad, readDigits_decimal]
    omega

/-! ## The order of the texts -/

/-- There are only digits in a text. -/
def IsDigits (text : Str) : Prop := ∀ b ∈ text, 48 ≤ b.toNat ∧ b.toNat ≤ 57

/-- The loop of `readDigits` from any value on. -/
theorem readDigits_foldl (value : ℕ) (text : Str) :
    text.foldl (fun value b => 10 * value + (b.toNat - 48)) value =
      value * 10 ^ text.length + readDigits text := by
  induction text generalizing value with
  | nil => simp [readDigits]
  | cons c text ih =>
      have hread : readDigits (c :: text) =
          (c.toNat - 48) * 10 ^ text.length + readDigits text := by
        rw [readDigits, List.foldl_cons, ih, Nat.mul_zero, Nat.zero_add]
      rw [List.foldl_cons, ih, hread, List.length_cons, Nat.pow_succ, Nat.add_mul, Nat.mul_assoc,
        Nat.mul_left_comm, Nat.mul_comm 10]
      omega

theorem readDigits_cons (c : UInt8) (text : Str) :
    readDigits (c :: text) = (c.toNat - 48) * 10 ^ text.length + readDigits text := by
  rw [readDigits, List.foldl_cons, readDigits_foldl, Nat.mul_zero, Nat.zero_add]

/-- A text of `k` digits has a value below `10 ^ k`. -/
theorem readDigits_lt {text : Str} (h : IsDigits text) : readDigits text < 10 ^ text.length := by
  induction text with
  | nil => decide
  | cons c text ih =>
      have hc := h c List.mem_cons_self
      have hrest := ih fun b hb => h b (List.mem_cons_of_mem c hb)
      have hle : (c.toNat - 48) * 10 ^ text.length ≤ 9 * 10 ^ text.length :=
        Nat.mul_le_mul_right _ (by omega)
      rw [readDigits_cons, List.length_cons, Nat.pow_succ]
      omega

/-- Digits of one number compare like their values. -/
theorem readDigits_lt_iff {a b : Str} (ha : IsDigits a) (hb : IsDigits b)
    (hlen : a.length = b.length) : readDigits a < readDigits b ↔ a < b := by
  induction a generalizing b with
  | nil =>
      obtain rfl := List.length_eq_zero_iff.mp hlen.symm
      simp
  | cons c a ih =>
      cases b with
      | nil => exact absurd hlen (Nat.succ_ne_zero _)
      | cons d b =>
          have hc := ha c List.mem_cons_self
          have hd := hb d List.mem_cons_self
          have ha' : IsDigits a := fun x hx => ha x (List.mem_cons_of_mem c hx)
          have hb' : IsDigits b := fun x hx => hb x (List.mem_cons_of_mem d hx)
          have hrest := ih ha' hb' (Nat.succ.inj hlen)
          have hlta := readDigits_lt ha'
          have hltb := readDigits_lt hb'
          rw [Nat.succ.inj hlen] at hlta
          rw [readDigits_cons, readDigits_cons, List.cons_lt_cons_iff, ← hrest,
            UInt8.lt_iff_toNat_lt, ← UInt8.toNat_inj, Nat.succ.inj hlen]
          -- one more in front weighs more than all that is behind
          rcases Nat.lt_trichotomy c.toNat d.toNat with hlt | heq | hgt
          · have hstep : (c.toNat - 48 + 1) * 10 ^ b.length ≤ (d.toNat - 48) * 10 ^ b.length :=
              Nat.mul_le_mul_right _ (by omega)
            rw [Nat.add_mul] at hstep
            omega
          · rw [heq]
            omega
          · have hstep : (d.toNat - 48 + 1) * 10 ^ b.length ≤ (c.toNat - 48) * 10 ^ b.length :=
              Nat.mul_le_mul_right _ (by omega)
            rw [Nat.add_mul] at hstep
            omega

/-- The text of a number without a sign. -/
theorem isDigits_zeroPadded {w : ℕ} {v : ℤ} (hv : 0 ≤ v) : IsDigits (zeroPadded w v) := by
  intro b hb
  rw [zeroPadded, if_neg (not_lt.mpr hv)] at hb
  rcases List.mem_append.mp hb with hzero | hdigit
  · rw [List.eq_of_mem_replicate hzero]
    decide
  · exact Socket.toNat_of_mem_decimal hdigit

theorem readDigits_zeroPadded {w : ℕ} {v : ℤ} (hv : 0 ≤ v) :
    readDigits (zeroPadded w v) = v.natAbs := by
  rw [zeroPadded, if_neg (not_lt.mpr hv), readDigits_leftpad, readDigits_decimal]

/-- **A field of a text**: it is compared by its value, and what is behind it after that. -/
theorem field_lt_iff {w : ℕ} {u v : ℤ} {x y : Str} (hu : 0 ≤ u) (hv : 0 ≤ v)
    (hlen : (zeroPadded w u).length = (zeroPadded w v).length) :
    zeroPadded w u ++ x < zeroPadded w v ++ y ↔ u < v ∨ u = v ∧ x < y := by
  have hinj : zeroPadded w u = zeroPadded w v ↔ u = v := by
    constructor
    · intro heq
      rw [← readInt_zeroPadded w u, heq, readInt_zeroPadded]
    · rintro rfl
      rfl
  have hlt : zeroPadded w u < zeroPadded w v ↔ u < v := by
    rw [← readDigits_lt_iff (isDigits_zeroPadded hu) (isDigits_zeroPadded hv) hlen,
      readDigits_zeroPadded hu, readDigits_zeroPadded hv]
    omega
  rw [append_lt_append_iff hlen, hinj, hlt]

end Printf

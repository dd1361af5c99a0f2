import Jos.Lib.StringField

/-! `printnum`: the field and the digits in it, read as a number again. -/
namespace Jos

open Prog

variable {σ : Type} {b n : ℕ} {ds : List Byte} {c : Byte}

/-- The value of a character of `"0123456789abcdef"`, and 16 for any other. -/
def digitOf (c : Byte) : ℕ := (lit "0123456789abcdef").idxOf c

/-- The number that is read from digits, most significant first. -/
def reading (b : ℕ) (ds : List Byte) : ℕ := ds.foldl (fun v c => v * b + digitOf c) 0

theorem reading_concat (b : ℕ) (ds : List Byte) (c : Byte) :
    reading b (ds ++ [c]) = reading b ds * b + digitOf c :=
  List.foldl_append

theorem digitOf_digitChar (hn : n < 16) : digitOf (chr n.digitChar) = n := by
  have : ∀ n < 16, digitOf (chr (n : ℕ).digitChar) = n := by decide
  exact this n hn

theorem digitChar_ne_zero (h0 : n ≠ 0) (hn : n < 16) : (chr n.digitChar : Byte) ≠ chr '0' := by
  intro h
  have hval := digitOf_digitChar hn
  rw [h] at hval
  exact h0 hval.symm

/-- What is printed is read as the number. -/
theorem reading_numeral (hb : 1 < b) (hb' : b ≤ 16) : reading b (numeral b n) = n := by
  induction n using Nat.strongRecOn with
  | ind n ih =>
    rcases Nat.lt_or_ge n b with hlt | hle
    · rw [numeral_of_lt hlt]
      have hdigit : digitOf (chr n.digitChar) = n := digitOf_digitChar (by omega)
      rw [reading, List.foldl_cons, List.foldl_nil, hdigit]
      omega
    · have hmod : n % b < 16 := by
        have := Nat.mod_lt n (show 0 < b by omega)
        omega
      have hdiv : n / b < n := Nat.div_lt_self (by omega) hb
      rw [numeral_of_le hb hle, reading_concat, ih _ hdiv, digitOf_digitChar hmod]
      exact Nat.div_add_mod' n b

theorem head_numeral (hb : 1 < b) (hb' : b ≤ 16) (hn : n ≠ 0) :
    (numeral b n).head? ≠ some (chr '0') := by
  induction n using Nat.strongRecOn with
  | ind n ih =>
    rcases Nat.lt_or_ge n b with hlt | hle
    · rw [numeral_of_lt hlt]
      intro h
      exact digitChar_ne_zero hn (by omega) (Option.some.inj h)
    · have hdiv : n / b < n := Nat.div_lt_self (by omega) hb
      have hpos : n / b ≠ 0 := Nat.ne_of_gt (Nat.div_pos hle (by omega))
      have hhead := ih _ hdiv hpos
      rw [numeral_of_le hb hle]
      cases hds : numeral b (n / b) with
      | nil => exact absurd hds numeral_ne_nil
      | cons a ds =>
        rw [hds] at hhead
        exact hhead

theorem digitOf_numeral (hb : 1 < b) (hb' : b ≤ 16) : ∀ c ∈ numeral b n, digitOf c < b := by
  intro c hc
  obtain ⟨k, hk, rfl⟩ := numeral_mem hb c hc
  rw [digitOf_digitChar (by omega)]
  exact hk

/-- The number stands at the right end of its field, in digits that are read as the number. -/
theorem printnum_text (putch : BitVec 32 → σ → σ) (s : σ) (num : BitVec 64)
    (base width padc : BitVec 32) (hlo : 2 ≤ base.toNat) (hhi : base.toNat ≤ 16)
    (hw : -2 ^ 30 ≤ width.toInt) :
    ∃ ds : List Byte,
      Settles (fun fuel => printnum putch fuel num base width padc s)
        (.ok (emit putch
          (List.replicate (width.toInt - ds.length).toNat padc ++ chars ds) s)) ∧
      (∀ c ∈ ds, digitOf c < base.toNat) ∧
      (num = 0 → ds.length = 1) ∧ (num ≠ 0 → ds.head? ≠ some (chr '0')) ∧
      reading base.toNat ds = num.toNat := by
  have hlen := length_numeral_le hlo num.isLt
  have hrun : Settles (fun fuel => printnum putch fuel num base width padc s) _ :=
    printnum_settles hlo hhi
  have hpad : (width - BitVec.ofNat 32 (numeral base.toNat num.toNat).length).toInt =
      width.toInt - (numeral base.toNat num.toNat).length := toInt_sub_ofNat (by omega) (by omega)
  rw [numberText, padding_toInt, hpad] at hrun
  refine ⟨numeral base.toNat num.toNat, hrun, digitOf_numeral hlo hhi, ?_, ?_,
    reading_numeral hlo hhi⟩
  · rintro rfl
    rw [numeral_of_lt (show (0 : BitVec 64).toNat < base.toNat by exact Nat.zero_lt_of_lt hlo)]
    rfl
  · intro hnum
    exact head_numeral hlo hhi fun h => hnum (BitVec.eq_of_toNat_eq h)

/-- 255 in base 16, in a field of 4. -/
theorem printnum_text_hex : ∃ ds : List Byte,
    Settles (fun fuel => printnum collect fuel 255 16 4 (chr ' ') [])
      (.ok (emit collect (List.replicate (4 - ds.length : Int).toNat (chr ' ') ++ chars ds) [])) ∧
    reading 16 ds = 255 := by
  obtain ⟨ds, hrun, -, -, -, hread⟩ := printnum_text collect [] 255 16 4 (chr ' ') (by decide)
    (by decide) (by decide)
  exact ⟨ds, hrun, hread⟩

end Jos

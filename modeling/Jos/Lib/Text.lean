import Jos.Lib.Fields

/-! What the loop of the case `'s'` prints. -/
namespace Jos

open Prog

variable {p pre s post out : List Byte} {b : Byte} {alt : Bool}
  {precision width : BitVec 32} {o : List (BitVec 32)}

/-- The `int` that is printed for a byte of a string: its value as a signed `char`. -/
def shown (alt : Bool) (b : Byte) : BitVec 32 :=
  let ch : BitVec 32 := b.signExtend 32
  if alt ∧ (ch.slt (chr ' ') ∨ (chr '~' : BitVec 32).slt ch) then chr '?' else ch

theorem signExtend_eq_zero : (b.signExtend 32 : BitVec 32) = 0 ↔ b = 0 := by
  revert b
  decide

theorem shown_false : shown false = BitVec.signExtend 32 := by
  funext b
  simp [shown]

/-- The precision after `n` characters: a negative one is not counted down. -/
def spend (precision : BitVec 32) (n : ℕ) : BitVec 32 :=
  if precision.slt 0 then precision else precision - BitVec.ofNat 32 n

/-- The part of a string that a precision lets through. -/
def clip (precision : BitVec 32) (s : List Byte) : List Byte :=
  if precision.slt 0 then s else s.take precision.toNat

/-- A pass over a byte that the precision lets through. -/
theorem textBody_shown {i : ℕ} (hp : p[i]? = some b) (hb : b ≠ 0)
    (hprec : precision.slt 0 ∨ 0 < precision.toNat) :
    textBody collect p alt ⟨i, precision, width, o⟩ =
      .ok (.inl ⟨i + 1, spend precision 1, width - 1, o ++ [shown alt b]⟩) := by
  have hne : ¬ (b.signExtend 32 : BitVec 32) = 0 := mt signExtend_eq_zero.mp hb
  have hspend : (if precision.slt 0 then precision else precision - 1) = spend precision 1 := rfl
  have hlet : precision.slt 0 ∨ (0#32).sle (spend precision 1) := by
    by_cases hneg : precision.slt 0
    · exact .inl hneg
    · have hpos := hprec.resolve_left hneg
      have hone : precision - BitVec.ofNat 32 1 = precision - 1 := rfl
      right
      rw [spend, if_neg hneg, hone]
      rw [slt_iff_toNat] at hneg
      have hlt : ¬ (precision - 1).slt 0 := by
        rw [slt_iff_toNat]
        bv_omega
      rw [BitVec.sle_eq_not_slt]
      simpa using hlt
  simp only [textBody, peek_of_getElem? hp, ok_bind, if_neg hne, hspend, hlet, if_true]
  rfl

/-- The pass that finds the precision used up: it has read one more byte. -/
theorem textBody_spent {i : ℕ} (alt : Bool) (width : BitVec 32) (o : List (BitVec 32))
    (hp : p[i]? = some b) (hb : b ≠ 0) :
    textBody collect p alt ⟨i, 0, width, o⟩ = .ok (.inr ⟨i + 1, -1, width, o⟩) := by
  have hne : ¬ (b.signExtend 32 : BitVec 32) = 0 := mt signExtend_eq_zero.mp hb
  have hstop : ¬ ((0#32).slt 0 = true ∨ (0#32).sle (0 - 1) = true) := by decide
  simp only [textBody, peek_of_getElem? hp, ok_bind, if_neg hne]
  exact if_neg hstop

theorem textBody_nul {i : ℕ} (hp : p[i]? = some 0) :
    textBody collect p alt ⟨i, precision, width, o⟩ =
      .ok (.inr ⟨i + 1, precision, width, o⟩) := by
  simp only [textBody, peek_of_getElem? hp]
  rfl

theorem spend_zero : spend precision 0 = precision := by
  have hzero : precision - BitVec.ofNat 32 0 = precision := BitVec.sub_zero precision
  rw [spend, hzero, ite_self]

theorem spend_spend {n : ℕ} (hn : precision.slt 0 ∨ n + 1 ≤ precision.toNat) :
    spend (spend precision 1) n = spend precision (n + 1) := by
  by_cases hneg : precision.slt 0
  · simp only [spend, hneg, if_true]
  · have hle := hn.resolve_left hneg
    have hone : spend precision 1 = precision - BitVec.ofNat 32 1 := if_neg hneg
    have hnext : ¬ (precision - BitVec.ofNat 32 1).slt 0 := by
      rw [slt_iff_toNat] at hneg ⊢
      bv_omega
    rw [hone, spend, if_neg hnext, spend, if_neg hneg]
    bv_omega

/-- The loop prints the bytes that the precision lets through, up to a NUL. -/
theorem string_run {x : Res (Text (List (BitVec 32)))} (pre s post : List Byte)
    (hp : p = pre ++ s ++ post) (hs : 0 ∉ s)
    (hprec : precision.slt 0 ∨ s.length ≤ precision.toNat)
    (h : Settles (fun n => loop (textBody collect p alt) n ⟨(pre ++ s).length,
      spend precision s.length, width - BitVec.ofNat 32 s.length, o ++ s.map (shown alt)⟩) x) :
    Settles (fun n => loop (textBody collect p alt) n ⟨pre.length, precision, width, o⟩) x := by
  induction s generalizing pre precision width o with
  | nil =>
    have hwidth : width - BitVec.ofNat 32 0 = width := BitVec.sub_zero width
    rwa [List.length_nil, hwidth, List.map_nil, List.append_nil, List.append_nil,
      spend_zero] at h
  | cons b s ih =>
    obtain ⟨hb, hs⟩ := not_or.mp (mt List.mem_cons.mpr hs)
    have hget : p[pre.length]? = some b := by simp [hp]
    have hp' : p = (pre ++ [b]) ++ s ++ post := by simp [hp]
    have hlen : (b :: s).length = s.length + 1 := List.length_cons
    rw [hlen] at hprec
    have hwidth : width - 1 - BitVec.ofNat 32 s.length =
        width - BitVec.ofNat 32 (s.length + 1) := by
      bv_omega
    have hout : o ++ (b :: s).map (shown alt) = o ++ [shown alt b] ++ s.map (shown alt) := by
      rw [List.map_cons, List.append_assoc, List.singleton_append]
    have hpre : (pre ++ b :: s).length = ((pre ++ [b]) ++ s).length := by simp
    have hrest : (spend precision 1).slt 0 ∨ s.length ≤ (spend precision 1).toNat := by
      by_cases hneg : precision.slt 0
      · left
        rwa [spend, if_pos hneg]
      · have hle := hprec.resolve_left hneg
        right
        rw [spend, if_neg hneg]
        bv_omega
    rw [hpre, hlen, ← spend_spend hprec, ← hwidth, hout] at h
    have hrun := ih (pre ++ [b]) hp' hs hrest h
    rw [List.length_append, List.length_singleton] at hrun
    have hpos : precision.slt 0 ∨ 0 < precision.toNat :=
      hprec.imp_right fun hle => Nat.lt_of_lt_of_le (Nat.succ_pos _) hle
    exact .loop_next (textBody_shown hget (Ne.symm hb) hpos) hrun

/-- What the loop leaves of a string that ends in a NUL. -/
theorem text_settles (alt : Bool) (precision width : BitVec 32) (o : List (BitVec 32))
    (hp : p = s ++ 0 :: post) (hs : 0 ∉ s) :
    ∃ t : Text (List (BitVec 32)), t.width = width - BitVec.ofNat 32 (clip precision s).length ∧
      t.out = o ++ (clip precision s).map (shown alt) ∧
      Settles (fun n => loop (textBody collect p alt) n ⟨0, precision, width, o⟩) (.ok t) := by
  by_cases hprec : precision.slt 0 ∨ s.length ≤ precision.toNat
  · have hclip : clip precision s = s := by
      rcases hprec with hneg | hle
      · exact if_pos hneg
      · rw [clip, List.take_of_length_le hle, ite_self]
    have hnul : p[([] ++ s).length]? = some 0 := by simp [hp]
    rw [hclip]
    exact ⟨_, rfl, rfl, string_run [] s (0 :: post) hp hs hprec
      (.loop_exit (textBody_nul hnul))⟩
  · obtain ⟨hneg, hlt⟩ := not_or.mp hprec
    rw [Nat.not_le] at hlt
    have htake : (s.take precision.toNat).length = precision.toNat := by
      rw [List.length_take, Nat.min_eq_left (Nat.le_of_lt hlt)]
    have hclip : clip precision s = s.take precision.toNat := if_neg hneg
    have hspend : spend precision (s.take precision.toNat).length = 0 := by
      rw [spend, if_neg hneg, htake]
      bv_omega
    have hp' : p = [] ++ s.take precision.toNat ++ (s.drop precision.toNat ++ 0 :: post) := by
      rw [List.nil_append, ← List.append_assoc, List.take_append_drop, hp]
    have hmem : s[precision.toNat] ≠ 0 := fun h0 => hs (h0 ▸ List.getElem_mem hlt)
    have hget : p[([] ++ s.take precision.toNat).length]? = some s[precision.toNat] := by
      rw [List.nil_append, htake, hp, List.getElem?_append_left hlt,
        List.getElem?_eq_getElem hlt]
    have hexit := Settles.loop_exit (textBody_spent alt
      (width - BitVec.ofNat 32 (s.take precision.toNat).length)
      (o ++ (s.take precision.toNat).map (shown alt)) hget hmem)
    rw [← hspend] at hexit
    have hmem' : 0 ∉ s.take precision.toNat := fun h0 => hs (List.mem_of_mem_take h0)
    rw [hclip]
    exact ⟨_, rfl, rfl, string_run [] _ _ hp' hmem' (.inr (Nat.le_of_eq htake)) hexit⟩

/-- The width is counted down by every character, and is negative when there was none. -/
theorem padLoop_uncounted {n : ℕ} (hn : n < 2 ^ 31) (c : BitVec 32) :
    (padLoop collect c (-1 - BitVec.ofNat 32 n) o).2 = o := by
  have hneg : ¬ (0#32).slt (-1 - BitVec.ofNat 32 n) := by
    have hone : (-1 : BitVec 32).toNat = 2 ^ 32 - 1 := rfl
    rw [BitVec.slt_iff_toInt_lt, BitVec.toInt_zero, BitVec.toInt_eq_toNat_cond,
      BitVec.toNat_sub, BitVec.toNat_ofNat]
    omega
  rw [padLoop, if_neg hneg]

/-- The directive `%s` prints every byte up to the first NUL, as a signed `char`. -/
theorem vprintfmt_array (hs : 0 ∉ s) (hlen : s.length < 2 ^ 31) (post : List Byte) :
    Settles (fun n => vprintfmt collect n (cstr (lit "%s")) [.str (some (s ++ 0 :: post))] [])
      (.ok (s.map (BitVec.signExtend 32))) := by
  have hnopad : ¬ (0#32).slt (-1) := by decide
  have hclip : clip (-1) s = s := if_pos (by decide)
  obtain ⟨t, hwidth, hout, htext⟩ :=
    text_settles false (-1) (-1) [] (rfl : s ++ 0 :: post = s ++ 0 :: post) hs
  rw [hclip] at hwidth hout
  have hstring : Settles (fun n => string collect n {} (s ++ 0 :: post) [])
      (.ok (s.map (BitVec.signExtend 32))) := by
    rw [← shown_false, ← padLoop_uncounted (o := s.map (shown false)) hlen (chr ' '), ← hwidth,
      ← List.nil_append (s.map _), ← hout]
    refine (htext.view fun t => (padLoop collect (chr ' ') t.width t.out).2).congr fun n => ?_
    have hpad : stringPad collect n {} (s ++ 0 :: post) [] = .ok (-1, []) :=
      if_neg fun h => hnopad h.1
    rw [string, hpad]
    rfl
  refine vprintfmt_field (c := chr 's') (r := []) ⟨false, none⟩ (by decide) fun f i l => ?_
  exact (hstring.view fun out => (⟨i, [], out, .text⟩ : Scan _)).congr fun n => rfl

/-- The directive `%s` prints every byte of a string, as a signed `char`. -/
theorem vprintfmt_string (hs : 0 ∉ s) (hlen : s.length < 2 ^ 31) :
    Settles (fun n => vprintfmt collect n (cstr (lit "%s")) [.str (some (cstr s))] [])
      (.ok (s.map (BitVec.signExtend 32))) := vprintfmt_array hs hlen []

end Jos

import Jos.Lib.Text
import Jos.Lib.Justify
import Mathlib.Algebra.Group.Int.Defs

/-! The case `'s'`: a string in a field, and the bytes that it reads. -/
namespace Jos

open Prog

variable {p pre s post : List Byte} {b : Byte} {n size precision : BitVec 32} {i : ℕ}
  {d : Flags} {o : List (BitVec 32)}

/-! ### The length of the string -/

theorem strnlenBody_next (hp : p[i]? = some b) (hb : b ≠ 0) (hsize : 0 < size) :
    strnlenBody p (n, i, size) = .ok (.inl (n + 1, i + 1, size - 1)) := by
  simp only [strnlenBody, if_pos hsize, peek_of_getElem? hp, ok_bind, if_neg hb]
  rfl

theorem strnlenBody_nul (hp : p[i]? = some 0) :
    strnlenBody p (n, i, size) = .ok (.inr n) := by
  simp only [strnlenBody, peek_of_getElem? hp]
  exact ite_self _

/-- `strnlen` passes over the bytes of a string while the size allows it. -/
theorem strnlen_run {x : Res (BitVec 32)} (pre s post : List Byte) (hp : p = pre ++ s ++ post)
    (hs : 0 ∉ s) (hsize : s.length ≤ size.toNat)
    (h : Settles (fun fuel => loop (strnlenBody p) fuel
      (n + BitVec.ofNat 32 s.length, (pre ++ s).length, size - BitVec.ofNat 32 s.length)) x) :
    Settles (fun fuel => loop (strnlenBody p) fuel (n, pre.length, size)) x := by
  induction s generalizing pre n size with
  | nil =>
    have hn : n + BitVec.ofNat 32 0 = n := BitVec.add_zero n
    have hzero : size - BitVec.ofNat 32 0 = size := BitVec.sub_zero size
    rwa [List.length_nil, hn, hzero, List.append_nil] at h
  | cons b s ih =>
    obtain ⟨hb, hs⟩ := not_or.mp (mt List.mem_cons.mpr hs)
    rw [List.length_cons] at hsize
    have hget : p[pre.length]? = some b := by simp [hp]
    have hp' : p = (pre ++ [b]) ++ s ++ post := by simp [hp]
    have hpos : 0 < size := by bv_omega
    have hn : n + BitVec.ofNat 32 (b :: s).length = n + 1 + BitVec.ofNat 32 s.length :=
      Memory.add_ofNat_succ s.length
    have hsub : size - BitVec.ofNat 32 (b :: s).length = size - 1 - BitVec.ofNat 32 s.length := by
      rw [List.length_cons]
      bv_omega
    have hlen : (pre ++ b :: s).length = ((pre ++ [b]) ++ s).length := by simp
    rw [hn, hsub, hlen] at h
    have hrun := ih (pre ++ [b]) hp' hs (by bv_omega) h
    rw [List.length_append, List.length_singleton] at hrun
    exact .loop_next (strnlenBody_next hget (Ne.symm hb) hpos) hrun

/-- Past `size` bytes nothing is read. -/
theorem strnlen_spent (hp : p = s ++ post) (hs : 0 ∉ s) (hlen : s.length = size.toNat) :
    Settles (fun fuel => strnlen fuel p size) (.ok size) := by
  have hn : 0 + BitVec.ofNat 32 s.length = size := by
    rw [hlen]
    bv_omega
  have hzero : size - BitVec.ofNat 32 s.length = 0 := by
    rw [hlen]
    bv_omega
  refine strnlen_run [] s post hp hs (Nat.le_of_eq hlen) ?_
  rw [hn, hzero]
  exact .loop_exit rfl

/-- `strnlen` of a string: its length, and at most `size`. -/
theorem strnlen_count (hp : p = s ++ 0 :: post) (hs : 0 ∉ s) :
    Settles (fun fuel => strnlen fuel p size)
      (.ok (BitVec.ofNat 32 (min s.length size.toNat))) := by
  rcases Nat.le_total s.length size.toNat with hle | hge
  · have hn : 0 + BitVec.ofNat 32 s.length = BitVec.ofNat 32 s.length := BitVec.zero_add _
    have hnul : p[([] ++ s).length]? = some 0 := by simp [hp]
    rw [Nat.min_eq_left hle]
    refine strnlen_run [] s (0 :: post) hp hs hle ?_
    rw [hn]
    exact .loop_exit (strnlenBody_nul hnul)
  · have hp' : p = s.take size.toNat ++ (s.drop size.toNat ++ 0 :: post) := by
      rw [← List.append_assoc, List.take_append_drop, hp]
    have hsize : BitVec.ofNat 32 size.toNat = size := by simp
    rw [Nat.min_eq_right hge, hsize]
    refine strnlen_spent hp' (fun h0 => hs (List.mem_of_mem_take h0)) ?_
    rw [List.length_take, Nat.min_eq_left hge]

/-! ### What is printed -/

/-- What the loop over the characters prints. -/
def stringBody (d : Flags) (s : List Byte) : List (BitVec 32) :=
  (clip d.precision s).map (shown d.altflag)

/-- The width that is left once the padding before the string is printed, and that padding. -/
def stringWidth (d : Flags) (s : List Byte) : BitVec 32 × List (BitVec 32) :=
  if (0#32).slt d.width ∧ d.padc ≠ chr '-' then
    let width := d.width - BitVec.ofNat 32 (min s.length d.precision.toNat)
    (if (0#32).slt width then 0 else width, padding (d.padc.signExtend 32) width)
  else (d.width, [])

/-- What the case `'s'` prints: one count of the width runs through all three parts. -/
def stringText (d : Flags) (s : List Byte) : List (BitVec 32) :=
  (stringWidth d s).2 ++ stringBody d s ++
    padding (chr ' ') ((stringWidth d s).1 - BitVec.ofNat 32 (clip d.precision s).length)

theorem stringPad_text (hp : p = s ++ 0 :: post) (hs : 0 ∉ s) :
    Settles (fun n => stringPad collect n d p o)
      (.ok ((stringWidth d s).1, o ++ (stringWidth d s).2)) := by
  unfold stringPad stringWidth
  split
  · have hpad : ∀ c w, padLoop collect c w o =
        (if (0#32).slt w then 0 else w, o ++ padding c w) := by
      intro c w
      have hemit : o ++ padding c w = emit collect (padding c w) o := (emit_collect_eq _).symm
      rw [hemit, ← padLoop_snd]
      unfold padLoop
      split <;> rfl
    dsimp only
    rw [← hpad]
    exact (strnlen_count hp hs).bind (Settles.const _)
  · rw [List.append_nil]
    exact Settles.const _

theorem string_text (hp : p = s ++ 0 :: post) (hs : 0 ∉ s) :
    Settles (fun n => string collect n d p o) (.ok (o ++ stringText d s)) := by
  obtain ⟨t, hwidth, hout, htext⟩ := text_settles d.altflag d.precision (stringWidth d s).1
    (o ++ (stringWidth d s).2) hp hs
  have hlast : (padLoop collect (chr ' ') t.width t.out).2 = o ++ stringText d s := by
    rw [padLoop_snd, emit_collect_eq, hwidth, hout, stringText, stringBody, List.append_assoc,
      List.append_assoc, List.append_assoc]
  rw [← hlast]
  exact (stringPad_text hp hs).bind (htext.bind (Settles.const _))

/-- The argument of `%s`, and the string that is printed for it. -/
inductive StringArg : Option (List Byte) → List Byte → Prop
  | null : StringArg none (lit "(null)")
  | array {s rest : List Byte} (h : 0 ∉ s) : StringArg (some (s ++ 0 :: rest)) s

theorem StringArg.array_eq {q : Option (List Byte)} (h : StringArg q s) :
    0 ∉ s ∧ ∃ post, q.getD (cstr (lit "(null)")) = s ++ 0 :: post := by
  cases h with
  | null => exact ⟨by decide, [], rfl⟩
  | array h => exact ⟨h, _, rfl⟩

/-- The conversion on a string, whatever prints the characters. -/
theorem convert_string {σ : Type} (putch : BitVec 32 → σ → σ)
    (printfmt : ℕ → List Byte → VaList → σ → Res σ) (f : List Byte) (d : Flags) (k : Scan σ)
    {ap : VaList} {q : Option (List Byte)} (hq : StringArg q s) (hap : k.ap = .str q :: ap) :
    Settles (fun n => convert putch (printfmt n) n f d (chr 's') k)
      (.ok { k with ap := ap, out := emit putch (stringText d s) k.out, label := .text }) := by
  obtain ⟨hs, post, hp⟩ := hq.array_eq
  have hmap : ∀ n, string putch n d (s ++ 0 :: post) k.out =
      view (fun out => emit putch out k.out) (string collect n d (s ++ 0 :: post) []) :=
    fun n => string_map (h := fun out => emit putch out k.out)
      (fun c out => (emit_collect c out k.out).symm) n d (s ++ 0 :: post) []
  have hstring : Settles (fun n => string putch n d (s ++ 0 :: post) k.out)
      (.ok (emit putch (stringText d s) k.out)) :=
    ((string_text rfl hs).view fun out => emit putch out k.out).congr hmap
  refine (hstring.view fun out => ({ k with ap := ap, out := out, label := .text } : Scan σ)).congr
    fun n => ?_
  have hva : vaStr k.ap = .ok (q, ap) := by rw [hap]; rfl
  have hconv : convert putch (printfmt n) n f d (chr 's') k = vaStr k.ap >>= fun r =>
      string putch n d (r.1.getD (cstr (lit "(null)"))) k.out >>= fun out =>
        pure { k with ap := r.2, out := out, label := .text } := rfl
  rw [hconv, hva, ok_bind, hp]
  rfl

/-! ### The field -/

/-- The field that a string should stand in. -/
def stringField (d : Flags) (s : List Byte) : List (BitVec 32) :=
  let pad := (d.width.toInt - (stringBody d s).length).toNat
  if d.padc = chr '-' then stringBody d s ++ List.replicate pad (chr ' ')
  else List.replicate pad (d.padc.signExtend 32) ++ stringBody d s

theorem padding_toInt (c w : BitVec 32) : padding c w = List.replicate w.toInt.toNat c := by
  by_cases hpos : (0#32).slt w
  · have hnat : w.toNat = w.toInt.toNat := by
      rw [slt_iff_toNat] at hpos
      rw [BitVec.toInt_eq_toNat_cond]
      bv_omega
    rw [padding, if_pos hpos, hnat]
  · have hnat : w.toInt.toNat = 0 := by
      rw [BitVec.slt_iff_toInt_lt, BitVec.toInt_zero] at hpos
      omega
    rw [padding, if_neg hpos, hnat, List.replicate_zero]

theorem toInt_sub_ofNat {w : BitVec 32} {L : ℕ} (hL : L < 2 ^ 31)
    (hw : -2 ^ 31 ≤ w.toInt - L) : (w - BitVec.ofNat 32 L).toInt = w.toInt - L := by
  have hlt := w.isLt
  rw [BitVec.toInt_eq_toNat_cond] at hw
  rw [BitVec.toInt_eq_toNat_cond, BitVec.toInt_eq_toNat_cond]
  bv_omega

/-- `strnlen` counts what the loop prints: a negative precision is a huge size. -/
theorem min_eq_clip (precision : BitVec 32) (hlen : s.length < 2 ^ 31) :
    min s.length precision.toNat = (clip precision s).length := by
  unfold clip
  split
  · rename_i hneg
    rw [slt_iff_toNat] at hneg
    bv_omega
  · rw [List.length_take, Nat.min_comm]

theorem length_clip_le (precision : BitVec 32) (s : List Byte) :
    (clip precision s).length ≤ s.length := by
  unfold clip
  split
  · exact Nat.le_refl _
  · exact List.length_take_le' _ _

theorem stringText_eq_field (hlen : s.length < 2 ^ 30) (hwidth : -2 ^ 30 < d.width.toInt) :
    stringText d s = stringField d s := by
  have hcount := min_eq_clip d.precision (show s.length < 2 ^ 31 by omega)
  have hle := length_clip_le d.precision s
  have hbody : (stringBody d s).length = (clip d.precision s).length := List.length_map ..
  have hsub : (d.width - BitVec.ofNat 32 (clip d.precision s).length).toInt =
      d.width.toInt - (clip d.precision s).length :=
    toInt_sub_ofNat (by omega) (by omega)
  unfold stringText stringWidth stringField
  rw [hcount, hbody]
  by_cases hdash : d.padc = chr '-'
  · rw [if_neg fun h => h.2 hdash, if_pos hdash, padding_toInt, hsub]
    rfl
  · rw [if_neg hdash]
    by_cases hpos : (0#32).slt d.width
    · rw [if_pos ⟨hpos, hdash⟩]
      dsimp only
      -- the left padding leaves no width, or a width that is not positive
      have hleft : ∀ w : BitVec 32, w.toInt = d.width.toInt - (clip d.precision s).length →
          ((if (0#32).slt w then 0 else w) - BitVec.ofNat 32 (clip d.precision s).length).toInt
            ≤ 0 := by
        intro w hw
        rw [BitVec.slt_iff_toInt_lt, BitVec.toInt_zero] at hpos
        split
        · have hzero : (0 : BitVec 32).toInt = 0 := rfl
          rw [toInt_sub_ofNat (by omega) (by omega)]
          omega
        · rename_i hnot
          rw [BitVec.slt_iff_toInt_lt, BitVec.toInt_zero] at hnot
          rw [toInt_sub_ofNat (by omega) (by omega)]
          omega
      rw [padding_toInt, padding_toInt, hsub, Int.toNat_of_nonpos (hleft _ hsub),
        List.replicate_zero, List.append_nil]
    · rw [if_neg fun h => hpos h.1]
      rw [BitVec.slt_iff_toInt_lt, BitVec.toInt_zero] at hpos
      have hnone : (d.width.toInt - (clip d.precision s).length).toNat = 0 := by omega
      rw [padding_toInt, hsub, hnone]
      simp

/-- The case `'s'` prints its field: padded on the left, or with spaces on the right after a
dash. -/
theorem convert_string_field {σ : Type} (putch : BitVec 32 → σ → σ)
    (printfmt : ℕ → List Byte → VaList → σ → Res σ) (f : List Byte) (d : Flags) (k : Scan σ)
    (q : Option (List Byte)) (s : List Byte) (ap : VaList) (hq : StringArg q s)
    (hap : k.ap = .str q :: ap) (hlen : s.length < 2 ^ 30) (hwidth : -2 ^ 30 < d.width.toInt) :
    Settles (fun n => convert putch (printfmt n) n f d (chr 's') k)
      (.ok { k with ap := ap, out := emit putch (stringField d s) k.out, label := .text }) := by
  rw [← stringText_eq_field hlen hwidth]
  exact convert_string putch printfmt f d k hq hap

theorem convert_string_field_abc :
    Settles (fun n => convert collect (vprintfmt collect n) n (lit "%5.2s")
        { width := 5, precision := 2 } (chr 's')
        ⟨5, [.str (some (cstr (lit "abc")))], [], .text⟩)
      (.ok ⟨5, [], chars (lit "   ab"), .text⟩) :=
  convert_string_field collect (fun n => vprintfmt collect n) (lit "%5.2s")
    { width := 5, precision := 2 } ⟨5, [.str (some (cstr (lit "abc")))], [], .text⟩
    (some (cstr (lit "abc"))) (lit "abc") [] (.array (by decide)) rfl (by decide) (by decide)

/-! ### The bytes that are read -/

theorem peek_end : peek p (p.length : ℕ) = .error .fault := by
  rw [peek_natCast, List.getElem?_eq_none (Nat.le_refl _)]

/-- Without a NUL the count ends at the size, or past the array. -/
theorem strnlen_unterminated (hp : 0 ∉ p) (hsize : p.length ≤ size.toNat) :
    (∃ n, Settles (fun fuel => strnlen fuel p size) (.ok n)) ∨
      Settles (fun fuel => strnlen fuel p size) (.error .fault) := by
  rcases Nat.eq_or_lt_of_le hsize with heq | hlt
  · exact .inl ⟨size, strnlen_spent (List.append_nil p).symm hp heq⟩
  · right
    have hpos : 0 < size - BitVec.ofNat 32 p.length := by bv_omega
    refine strnlen_run [] p [] (by simp) hp hsize ?_
    refine (Settles.const _).succ fun n => loop_of_error ?_
    rw [List.nil_append, strnlenBody, if_pos hpos, peek_end]
    rfl

/-- The last pass of the loop reads past the array. -/
theorem text_unterminated {alt : Bool} {width : BitVec 32} (hp : 0 ∉ p)
    (hprec : p.length ≤ precision.toNat) :
    Settles (fun n => loop (textBody collect p alt) n ⟨0, precision, width, o⟩)
      (.error .fault) := by
  refine string_run [] p [] (by simp) hp (.inr hprec) ?_
  refine (Settles.const _).succ fun n => loop_of_error ?_
  rw [List.nil_append, textBody, peek_end]
  rfl

theorem string_unterminated (hp : 0 ∉ p) (hprec : p.length ≤ d.precision.toNat) :
    Settles (fun n => string collect n d p o) (.error .fault) := by
  have hloop : ∀ r : BitVec 32 × List (BitVec 32), Settles (fun n =>
      loop (textBody collect p d.altflag) n ⟨0, d.precision, r.1, r.2⟩ >>= fun t =>
        pure (padLoop collect (chr ' ') t.width t.out).2) (.error .fault) :=
    fun r => (text_unterminated hp hprec).bind_error
  have hpad : (∃ r, Settles (fun n => stringPad collect n d p o) (.ok r)) ∨
      Settles (fun n => stringPad collect n d p o) (.error .fault) := by
    unfold stringPad
    split
    · rcases strnlen_unterminated hp hprec with ⟨n, hn⟩ | hfault
      · exact .inl ⟨_, hn.bind (Settles.const _)⟩
      · exact .inr hfault.bind_error
    · exact .inl ⟨_, Settles.const _⟩
  rcases hpad with ⟨r, hr⟩ | hfault
  · exact hr.bind (hloop r)
  · exact hfault.bind_error

/-- With a precision the conversion stays inside the bytes that the precision allows exactly when
there is a NUL among them. -/
theorem bounded_reads_iff {σ : Type} (putch : BitVec 32 → σ → σ)
    (printfmt : ℕ → List Byte → VaList → σ → Res σ) (f : List Byte) (d : Flags) (k : Scan σ)
    (p : List Byte) (ap : VaList) :
    (∃ r, Settles (fun n => convert putch (printfmt n) n f d (chr 's')
      { k with ap := .str (some (p.take d.precision.toNat)) :: ap }) (.ok r)) ↔
    0 ∈ p.take d.precision.toNat := by
  constructor
  · rintro ⟨r, hr⟩
    by_contra hnul
    have hfault : Settles (fun n => string collect n d (p.take d.precision.toNat) [])
        (.error .fault) :=
      string_unterminated hnul (List.length_take_le _ _)
    have hmap : ∀ n, string putch n d (p.take d.precision.toNat) k.out =
        view (fun out => emit putch out k.out)
          (string collect n d (p.take d.precision.toNat) []) :=
      fun n => string_map (h := fun out => emit putch out k.out)
        (fun c out => (emit_collect c out k.out).symm) n d (p.take d.precision.toNat) []
    have hstring : Settles (fun n => string putch n d (p.take d.precision.toNat) k.out)
        (.error .fault) :=
      (Settles.bind_error hfault).congr hmap
    exact nomatch hr.unique hstring.bind_error
  · intro hnul
    obtain ⟨s, rest, hsplit, hs⟩ := List.eq_append_cons_of_mem hnul
    rw [hsplit]
    exact ⟨_, convert_string putch printfmt f d _ (.array hs) rfl⟩

/-- Three characters without a terminator cannot be printed with a precision of three. -/
theorem bounded_reads_unterminated : ¬ ∃ r, Settles (fun n =>
    convert collect (vprintfmt collect n) n (lit "%.*s") { width := 0, precision := 3 } (chr 's')
      ⟨4, [.str (some (lit "abc"))], [], .text⟩) (.ok r) := by
  rintro ⟨r, hr⟩
  have hfault : Settles (fun n => string collect n { width := 0, precision := 3 } (lit "abc") [])
      (.error .fault) :=
    string_unterminated (by decide) (by decide)
  exact nomatch hr.unique hfault.bind_error

end Jos

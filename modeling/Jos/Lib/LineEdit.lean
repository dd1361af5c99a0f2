import Jos.Lib.Readline
import Mathlib.Data.List.Induction

/-! What line editing is for, and where `readline` does something else. -/
namespace Jos

open Prog

variable {bs us vs line : List Byte} {b : Byte} {s t : Editor} {n i : ℕ}

/-- One key on a line of at most `BUFLEN - 1` characters. -/
def editKey (line : List Byte) (b : Byte) : List Byte :=
  if isErase b then line.dropLast
  else if chr ' ' ≤ b ∧ line.length < bufLen - 1 then line ++ [b]
  else line

/-- The line after all keys. -/
def edit (bs : List Byte) : List Byte := bs.foldl editKey []

/-- How many characters a line holds when one more key comes: each erasing key takes one away, if
there is one, and each other key that is not a control adds one, up to `BUFLEN - 1`. -/
def countKey (n : ℕ) (b : Byte) : ℕ :=
  if isErase b ∧ 0 < n then n - 1
  else if chr ' ' ≤ b ∧ n < bufLen - 1 then n + 1
  else n

def count (bs : List Byte) : ℕ := bs.foldl countKey 0

/-- Every `0x7f` that comes when nothing is held is erased again. -/
def DeletesErased (bs : List Byte) : Prop :=
  ∀ us vs, bs = us ++ chr '\x7f' :: vs → count us = 0 →
    ∃ ws, ws <+: vs ∧ count (us ++ chr '\x7f' :: ws) = 0

/-- One key as `readline` takes it. -/
def takeKey (line : List Byte) (b : Byte) : List Byte :=
  if isErase b ∧ 0 < line.length then line.dropLast
  else if chr ' ' ≤ b ∧ line.length < bufLen - 1 then line ++ [b]
  else line

def taken (bs : List Byte) : List Byte := bs.foldl takeKey []

theorem edit_snoc : edit (bs ++ [b]) = editKey (edit bs) b := by simp [edit]

theorem taken_snoc : taken (bs ++ [b]) = takeKey (taken bs) b := by simp [taken]

theorem count_snoc : count (bs ++ [b]) = countKey (count bs) b := by simp [count]

theorem length_takeKey : (takeKey line b).length = countKey line.length b := by
  unfold takeKey countKey
  split
  · exact List.length_dropLast
  · split
    · simp
    · rfl

theorem length_taken (bs : List Byte) : (taken bs).length = count bs := by
  induction bs using List.reverseRecOn with
  | nil => rfl
  | append_singleton bs b ih => rw [taken_snoc, count_snoc, length_takeKey, ih]

/-! ### The edited line -/

theorem edit_no_erase : ∀ c ∈ edit bs, ¬ isErase c := by
  induction bs using List.reverseRecOn with
  | nil => simp [edit]
  | append_singleton bs b ih =>
    rw [edit_snoc, editKey]
    split
    · intro c hc
      exact ih c ((List.dropLast_sublist _).subset hc)
    · rename_i hb
      split
      · intro c hc
        rcases List.mem_append.mp hc with hc | hc
        · exact ih c hc
        · obtain rfl := List.mem_singleton.mp hc
          exact hb
      · exact ih

/-! ### How the two lines part and meet again -/

/-- A `0x7f` has come when nothing was held and has not been erased since. -/
def Astray (bs : List Byte) : Prop :=
  ∃ us vs, bs = us ++ chr '\x7f' :: vs ∧ count us = 0 ∧
    ∀ ws, ws <+: vs → count (us ++ chr '\x7f' :: ws) ≠ 0

theorem deletesErased_iff : DeletesErased bs ↔ ¬ Astray bs := by
  unfold DeletesErased Astray
  constructor
  · rintro h ⟨us, vs, hbs, hus, hne⟩
    obtain ⟨ws, hws, h0⟩ := h us vs hbs hus
    exact hne ws hws h0
  · intro h us vs hbs hus
    by_contra hne
    exact h ⟨us, vs, hbs, hus, fun ws hws h0 => hne ⟨ws, hws, h0⟩⟩

theorem countKey_delete : countKey 0 (chr '\x7f') = 1 := by decide

theorem astray_snoc : Astray (bs ++ [b]) ↔
    Astray bs ∧ count (bs ++ [b]) ≠ 0 ∨ b = chr '\x7f' ∧ count bs = 0 := by
  constructor
  · rintro ⟨us, vs, hbs, hus, hne⟩
    rcases List.eq_nil_or_concat vs with rfl | ⟨vs, c, rfl⟩
    · right
      obtain ⟨rfl, hb⟩ := List.append_inj' hbs rfl
      exact ⟨by simpa using hb, hus⟩
    · left
      rw [List.concat_eq_append, ← List.cons_append, ← List.append_assoc] at hbs
      obtain ⟨rfl, hb⟩ := List.append_inj' hbs rfl
      obtain rfl : b = c := by simpa using hb
      refine ⟨⟨us, vs, rfl, hus, fun ws hws => hne ws ?_⟩, ?_⟩
      · rw [List.concat_eq_append]
        exact hws.trans (List.prefix_append vs [b])
      · have := hne (vs.concat b) (List.prefix_refl _)
        simpa using this
  · rintro (⟨⟨us, vs, rfl, hus, hne⟩, hcount⟩ | ⟨rfl, hcount⟩)
    · refine ⟨us, vs ++ [b], by simp, hus, fun ws hws => ?_⟩
      rcases List.prefix_concat_iff.mp hws with rfl | hws
      · simpa using hcount
      · exact hne ws hws
    · refine ⟨bs, [], rfl, hcount, fun ws hws => ?_⟩
      obtain rfl := List.prefix_nil.mp hws
      rw [count_snoc, hcount, countKey_delete]
      decide

/-- Either the two lines are equal, or the taken one has the `0x7f` in front and holds one more
character than the edited one, or as many once it has been full. -/
structure Apart (line other : List Byte) : Prop where
  head : ∃ rest, line = chr '\x7f' :: rest
  length : line.length = other.length + 1 ∨ line.length = other.length

theorem editKey_eq_takeKey (h : 0 < line.length ∨ ¬ isErase b) :
    editKey line b = takeKey line b := by
  unfold editKey takeKey
  by_cases hb : isErase b
  · rw [if_pos hb, if_pos ⟨hb, h.resolve_right (not_not_intro hb)⟩]
  · have hnot : ¬ (isErase b ∧ 0 < line.length) := fun h => hb h.1
    rw [if_neg hb, if_neg hnot]

theorem isErase_delete : isErase (chr '\x7f') := by decide

/-- A key on a line that is empty: only `0x7f` tells the rules apart. -/
theorem takeKey_nil_erase (hb : isErase b) (hne : b ≠ chr '\x7f') : takeKey [] b = [] := by
  have : ∀ b, isErase b → b ≠ chr '\x7f' → takeKey [] b = [] := by decide
  exact this b hb hne

theorem takeKey_nil_delete : takeKey [] (chr '\x7f') = [chr '\x7f'] := by decide

/-- One key on two lines that are apart. -/
theorem Apart.key {other : List Byte} (h : Apart line other) (b : Byte) :
    takeKey line b = [] ∧ editKey other b = [] ∨ Apart (takeKey line b) (editKey other b) := by
  obtain ⟨⟨rest, rfl⟩, hlen⟩ := h
  rw [List.length_cons] at hlen
  unfold takeKey editKey
  by_cases hb : isErase b
  · rw [if_pos ⟨hb, by simp⟩, if_pos hb]
    rcases rest.eq_nil_or_concat with rfl | ⟨rest, c, rfl⟩
    · left
      refine ⟨rfl, List.length_eq_zero_iff.mp ?_⟩
      rw [List.length_nil] at hlen
      rw [List.length_dropLast]
      omega
    · right
      rw [List.concat_eq_append] at hlen ⊢
      refine ⟨⟨rest, ?_⟩, ?_⟩
      · rw [← List.cons_append, List.dropLast_concat]
      · rw [List.length_append, List.length_singleton] at hlen
        rw [← List.cons_append, List.dropLast_concat, List.length_dropLast, List.length_cons]
        omega
  · right
    rw [if_neg fun h => hb h.1, if_neg hb, List.length_cons]
    by_cases hc : chr ' ' ≤ b
    · simp only [hc, true_and]
      split
      · rw [if_pos (by omega)]
        refine ⟨⟨rest ++ [b], by simp⟩, ?_⟩
        simp only [List.length_append, List.length_cons, List.length_nil]
        omega
      · split
        · refine ⟨⟨rest, rfl⟩, ?_⟩
          simp only [List.length_append, List.length_cons, List.length_nil]
          omega
        · exact ⟨⟨rest, rfl⟩, by simpa using hlen⟩
    · rw [if_neg fun h => hc h.1, if_neg fun h => hc h.1]
      exact ⟨⟨rest, rfl⟩, by simpa using hlen⟩

/-- At every point the lines are equal or apart, as the history says. -/
theorem taken_edit (bs : List Byte) :
    ¬ Astray bs ∧ taken bs = edit bs ∨ Astray bs ∧ Apart (taken bs) (edit bs) := by
  induction bs using List.reverseRecOn with
  | nil =>
    left
    refine ⟨?_, rfl⟩
    rintro ⟨us, vs, h, -⟩
    simp at h
  | append_singleton bs b ih =>
    have hcount := length_taken bs
    have hcount' := length_taken (bs ++ [b])
    rw [astray_snoc, ← hcount', ← hcount]
    rw [taken_snoc, edit_snoc]
    rcases ih with ⟨hon, heq⟩ | ⟨hoff, hapart⟩
    · simp only [hon, false_and, false_or]
      by_cases hkey : 0 < (taken bs).length ∨ ¬ isErase b
      · left
        refine ⟨?_, ?_⟩
        · rintro ⟨rfl, hempty⟩
          rcases hkey with hkey | hkey
          · omega
          · exact hkey isErase_delete
        · rw [← heq, editKey_eq_takeKey hkey]
      · rw [not_or, not_not] at hkey
        have hnil : taken bs = [] := List.length_eq_zero_iff.mp (by omega)
        rw [← heq, hnil]
        by_cases hdel : b = chr '\x7f'
        · right
          subst hdel
          exact ⟨⟨rfl, rfl⟩, ⟨[], takeKey_nil_delete⟩, .inl (by decide)⟩
        · left
          refine ⟨fun h => hdel h.1, ?_⟩
          rw [takeKey_nil_erase hkey.2 hdel, editKey, if_pos hkey.2]
          rfl
    · have hpos : (taken bs).length ≠ 0 := by
        obtain ⟨rest, hrest⟩ := hapart.head
        simp [hrest]
      simp only [hoff, true_and, hpos, and_false, or_false]
      rcases hapart.key b with ⟨ht, he⟩ | hkey
      · left
        rw [ht, he]
        simp
      · right
        refine ⟨?_, hkey⟩
        obtain ⟨rest, hrest⟩ := hkey.head
        simp [hrest]

/-- The two rules give the same line exactly when every `0x7f` on an empty line is erased again. -/
theorem taken_eq_edit_iff : taken bs = edit bs ↔ DeletesErased bs := by
  rw [deletesErased_iff]
  rcases taken_edit bs with ⟨hon, heq⟩ | ⟨hoff, hapart⟩
  · exact iff_of_true heq hon
  · refine iff_of_false ?_ (not_not_intro hoff)
    intro heq
    obtain ⟨rest, hrest⟩ := hapart.head
    have hmem : chr '\x7f' ∈ edit bs := by
      rw [← heq, hrest]
      exact List.mem_cons_self
    exact edit_no_erase _ hmem isErase_delete

/-! ### The line in the buffer -/

/-- The characters typed so far are in the buffer. -/
structure Holds (s : Editor) (line : List Byte) : Prop where
  eq : line = (List.range s.i).map s.buf
  lt : s.i < bufLen
  nonzero : 0 ∉ line

theorem Holds.length (h : Holds s line) : line.length = s.i := by
  rw [h.eq]
  simp

theorem map_update (f : ℕ → Byte) (n : ℕ) (b : Byte) :
    (List.range n).map (Function.update f n b) = (List.range n).map f := by
  apply List.map_congr_left
  intro k hk
  exact Function.update_of_ne (Nat.ne_of_lt (List.mem_range.mp hk)) b f

theorem Holds.erase (h : Holds s line) (hs : 0 < s.i) (console : Console) :
    Holds { s with i := s.i - 1, console := console } line.dropLast where
  eq := by
    obtain ⟨n, hn⟩ : ∃ n, s.i = n + 1 := ⟨s.i - 1, by omega⟩
    rw [h.eq, hn, List.range_succ, List.map_append, List.map_singleton, List.dropLast_concat]
    rfl
  lt := by
    have := h.lt
    change s.i - 1 < bufLen
    omega
  nonzero hmem := h.nonzero ((List.dropLast_sublist _).subset hmem)

theorem Holds.insert (h : Holds s line) (hs : s.i < bufLen - 1) (hb : b ≠ 0) (console : Console) :
    Holds { s with buf := Function.update s.buf s.i b, i := s.i + 1, console := console }
      (line ++ [b]) where
  eq := by
    change _ = (List.range (s.i + 1)).map (Function.update s.buf s.i b)
    rw [List.range_succ, List.map_append, map_update, ← h.eq, List.map_singleton,
      Function.update_self]
  lt := by
    change s.i + 1 < bufLen
    omega
  nonzero hmem := by
    rcases List.mem_append.mp hmem with hmem | hmem
    · exact h.nonzero hmem
    · exact hb (List.mem_singleton.mp hmem).symm

theorem takeWhile_append_zero {ws : List Byte} (h : 0 ∉ line) :
    (line ++ 0 :: ws).takeWhile (· ≠ 0) = line := by
  rw [List.takeWhile_append_of_pos]
  · simp
  · intro c hc
    rw [decide_eq_true_eq]
    rintro rfl
    exact h hc

/-- The NUL that is stored last ends the line. -/
theorem Holds.line_eq (h : Holds s line) (console : Console) (i : ℕ) :
    Editor.line { s with buf := Function.update s.buf s.i 0, i := i, console := console } =
      line := by
  have hlt := h.lt
  obtain ⟨m, hm⟩ : ∃ m, bufLen = s.i + 1 + m := ⟨bufLen - (s.i + 1), by omega⟩
  change ((List.range bufLen).map (Function.update s.buf s.i 0)).takeWhile (· ≠ 0) = line
  rw [hm, List.range_add, List.map_append, List.range_succ, List.map_append, map_update, ← h.eq,
    List.append_assoc, List.map_singleton, Function.update_self]
  exact takeWhile_append_zero h.nonzero

/-- One pass takes one key. -/
theorem Holds.key (h : Holds s line) (hb : b ≠ 0) (hend : ¬ isEnd b) :
    ∃ t, (∀ n, readlineKey n (iscons 0) (b.setWidth 32) s = .ok (.inl t)) ∧
      Holds t (takeKey line b) ∧ t.polls = s.polls := by
  have hlen := h.length
  simp only [takeKey, hlen]
  by_cases herase : isErase b ∧ 0 < s.i
  · rw [if_pos herase]
    exact ⟨_, fun n => readlineKey_erase herase.1 herase.2, h.erase herase.2 _, rfl⟩
  · rw [if_neg herase]
    by_cases hins : chr ' ' ≤ b ∧ s.i < bufLen - 1
    · rw [if_pos hins]
      exact ⟨_, fun n => readlineKey_insert herase hins.1 hins.2, h.insert hins.2 hb _, rfl⟩
    · rw [if_neg hins]
      exact ⟨s, fun n => readlineKey_ignore herase hins hend, h, rfl⟩

/-- The loop takes the keys up to the end of the line, whenever they come. -/
theorem Holds.run {e : Byte} {rest : List Byte} (h : Holds s line)
    (hpolls : s.polls.filter (· ≠ 0) = bs ++ e :: rest) (hbs : ∀ b ∈ bs, ¬ isEnd b)
    (he : isEnd e) :
    ∃ t, LoopSettles (fun n => readlineBody n (iscons 0)) s (.ok (some (), t)) ∧
      t.line = bs.foldl takeKey line := by
  induction hp : s.polls generalizing s line bs with
  | nil =>
    rw [hp] at hpolls
    simp at hpolls
  | cons c polls ih =>
    have hpass : ∀ n, c ≠ 0 → readlineBody n (iscons 0) s =
        readlineKey n (iscons 0) (c.setWidth 32) { s with polls := polls } := by
      intro n hc
      simp only [readlineBody, hp, getchar, if_neg hc, ok_bind]
    have hs : Holds { s with polls := polls } line := ⟨h.eq, h.lt, h.nonzero⟩
    by_cases hc : c = 0
    · subst hc
      rw [hp, List.filter_cons_of_neg (by simp)] at hpolls
      obtain ⟨t, hrun, hline⟩ := ih hs hpolls hbs rfl
      refine ⟨t, hrun.of_eq fun n => ?_, hline⟩
      simp only [readlineBody, hp, getchar, if_true]
    · rw [hp, List.filter_cons_of_pos (by simpa using hc)] at hpolls
      cases bs with
      | nil =>
        obtain ⟨rfl, -⟩ := List.cons.inj hpolls
        refine ⟨_, .exit ((Settles.const _).congr fun n =>
          (hpass n hc).trans (readlineKey_end he hs.lt)), ?_⟩
        exact hs.line_eq _ _
      | cons b bs =>
        obtain ⟨rfl, hrest⟩ := List.cons.inj hpolls
        have hend := hbs c (by simp)
        obtain ⟨u, hkey, hu, hpolls'⟩ := hs.key hc hend
        obtain ⟨t, hrun, hline⟩ := ih hu (by rw [hpolls']; exact hrest)
          (fun b hb => hbs b (by simp [hb])) hpolls'
        exact ⟨t, .next ((Settles.const _).congr fun n => (hpass n hc).trans (hkey n)) hrun, hline⟩

variable {prompt : Option (List Byte)}

/-- A prompt is a string, and printing it ends. -/
theorem prompt_settles (hprompt : ∀ p ∈ prompt, 0 ∈ p) (console : Console) :
    ∃ c, Settles (fun fuel => (match prompt with
      | none => pure console
      | some p => vcprintf fuel (cstr (lit "%s")) [.str p] console >>= fun r => pure r.2 :
        Res Console)) (.ok c) := by
  cases prompt with
  | none => exact ⟨console, Settles.const _⟩
  | some p =>
    have hfit : Fits (formatArgs (lit "%s")) [.str p] := by
      refine ⟨fun a ha => ?_, trivial⟩
      obtain rfl := Option.some.inj ha
      exact hprompt _ rfl
    obtain ⟨o, -, ho⟩ := vprintfmt_collects (by decide) hfit fun h => absurd h (by decide)
    exact ⟨_, (vcprintf_settles ho console).bind (Settles.const _)⟩

/-- What `readline` returns: the line as its own rule edits it. -/
theorem readline_returns {e : Byte} {rest : List Byte} (hprompt : ∀ p ∈ prompt, 0 ∈ p)
    (hpolls : s.polls.filter (· ≠ 0) = bs ++ e :: rest) (hbs : ∀ b ∈ bs, ¬ isEnd b)
    (he : isEnd e) :
    ∃ t, Settles (fun n => readline n prompt s) (.ok (some (), t)) ∧ t.line = taken bs := by
  obtain ⟨c, hc⟩ := prompt_settles hprompt s.console
  have hstart : Holds { s with console := c, i := 0 } [] :=
    ⟨rfl, show 0 < bufLen from by decide, List.not_mem_nil⟩
  obtain ⟨t, hrun, hline⟩ := hstart.run hpolls hbs he
  exact ⟨t, hc.bind hrun.settles, hline⟩

/-- `readline` edits the line as it should, with no erasing character in the result, exactly when
every `0x7f` that comes on an empty line is erased again before the line ends. -/
theorem readline_edits_iff (s : Editor) (prompt : Option (List Byte)) (bs rest : List Byte)
    (e : Byte) (hprompt : ∀ p ∈ prompt, 0 ∈ p)
    (hpolls : s.polls.filter (· ≠ 0) = bs ++ e :: rest) (hbs : ∀ b ∈ bs, ¬ isEnd b)
    (he : isEnd e) :
    (∃ t, Settles (fun n => readline n prompt s) (.ok (some (), t)) ∧ t.line = edit bs ∧
      ∀ c ∈ t.line, c ≠ chr '\x08' ∧ c ≠ chr '\x7f') ↔ DeletesErased bs := by
  obtain ⟨t, hrun, hline⟩ := readline_returns hprompt hpolls hbs he
  rw [← taken_eq_edit_iff, ← hline]
  constructor
  · rintro ⟨u, hu, heq, -⟩
    have := Except.ok.inj (hrun.unique hu)
    rw [(Prod.mk.inj this).2, heq]
  · intro heq
    refine ⟨t, hrun, heq, fun c hc => ?_⟩
    have hnot := edit_no_erase c (heq ▸ hc)
    refine ⟨?_, ?_⟩ <;> rintro rfl <;> exact hnot (by decide)

theorem readline_edits_iff_delete :
    (∃ t, Settles (fun n => readline n none (.start 0 [chr 'a', 0, chr '\x7f', chr '\n']))
      (.ok (some (), t)) ∧ t.line = edit [chr 'a', chr '\x7f'] ∧
      ∀ c ∈ t.line, c ≠ chr '\x08' ∧ c ≠ chr '\x7f') ↔ DeletesErased [chr 'a', chr '\x7f'] :=
  readline_edits_iff (.start 0 [chr 'a', 0, chr '\x7f', chr '\n']) none [chr 'a', chr '\x7f'] []
    (chr '\n') (by simp) (by decide) (by decide) (by decide)

/-- A single `0x7f` is returned as the line. -/
theorem readline_keeps_delete :
    ¬ ∃ t, Settles (fun n => readline n none (.start 0 [chr '\x7f', chr '\n'])) (.ok (some (), t)) ∧
      t.line = edit [chr '\x7f'] ∧ ∀ c ∈ t.line, c ≠ chr '\x08' ∧ c ≠ chr '\x7f' := by
  rintro ⟨t, ht, heq, -⟩
  have hprompt : ∀ p ∈ (none : Option (List Byte)), 0 ∈ p := by simp
  have hpolls : (Editor.start 0 [chr '\x7f', chr '\n']).polls.filter (· ≠ 0) =
      [chr '\x7f'] ++ chr '\n' :: [] := by decide
  obtain ⟨u, hu, hline⟩ := readline_returns hprompt hpolls (by decide) (by decide)
  obtain rfl := (Prod.mk.inj (Except.ok.inj (ht.unique hu))).2
  rw [hline] at heq
  exact absurd heq (by decide)

end Jos

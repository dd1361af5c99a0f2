import Jos.Kern.Answers
import Jos.Lib.LineEdit
import Jos.Prog.Machine

/-!
The loop of the kernel monitor. However the keys come, it prints what a shell prints that
reads nothing but the line that is typed, and it waits for the next key.
-/
namespace Jos

open Prog

/-- What `runcmd` is given: the array that the result of `readline` points to. -/
def Editor.array (s : Editor) : List Byte := (List.range bufLen).map s.buf

/-- The buffer as `runcmd` leaves it. -/
def Editor.setArray (array : List Byte) (s : Editor) : Editor :=
  { s with buf := fun i => array.getD i (s.buf i) }

/-- One pass of the loop of `monitor`. -/
def monitorBody (syms : KernSyms) (tf : BitVec 32) (fuel : ℕ) (s : Editor) :
    Res (Editor ⊕ Editor) := do
  let (buf, s) ← readline fuel (some (cstr (lit "K> "))) s
  match buf with
  | none => pure (.inl s)
  | some () => do
    let (r, array, console) ← runcmd (commands syms) fuel s.array tf s.console
    let s := { s.setArray array with console := console }
    if r.slt 0 then pure (.inr s) else pure (.inl s)

def monitor (syms : KernSyms) (tf : BitVec 32) (fuel : ℕ) (s : Editor) : Res Editor := do
  let (_, console) ← cprintf fuel (cstr (lit "Welcome to the JOS kernel monitor!\n")) [] s.console
  let (_, console) ← cprintf fuel (cstr (lit "Type 'help' for a list of commands.\n")) [] console
  loop (monitorBody syms tf fuel) fuel { s with console := console }

/-- The loop of `readline`. -/
abbrev typing (n : ℕ) : Editor → Res (Editor ⊕ BufPtr × Editor) := readlineBody n (iscons 0)

/-- From `s` the monitor comes to wait for a key in `u`: after its banner, whole passes of its
loop, the prompt, and whole passes of the loop of `readline`. -/
def Waits (syms : KernSyms) (tf : BitVec 32) (s u : Editor) : Prop :=
  ∃ c₁ c₂ t c, Prints (lit "Welcome to the JOS kernel monitor!\n") [] s.console c₁ ∧
    Prints (lit "Type 'help' for a list of commands.\n") [] c₁ c₂ ∧
    Rounds (monitorBody syms tf) { s with console := c₂ } t ∧
    Prints (lit "%s") [.str (some (cstr (lit "K> ")))] t.console c ∧
    Rounds typing { t with console := c, i := 0 } u

/-! ### The shell -/

/-- A line, and everything that has been printed. -/
structure Shell where
  line : List Byte
  out : List (BitVec 32)

def promptText : List (BitVec 32) := chars (lit "K> ")

/-- What is printed for a key that does not end the line. -/
def echoed (line : List Byte) (b : Byte) : List (BitVec 32) :=
  if isErase b ∧ 0 < line.length then [chr '\x08']
  else if chr ' ' ≤ b ∧ line.length < bufLen - 1 then [b.setWidth 32]
  else []

/-- A shell that knows its line only: every line is answered for itself. -/
def shell (syms : KernSyms) : Machine Shell Byte where
  step a b :=
    if isEnd b then ⟨[], a.out ++ (chr '\n' :: (answer syms a.line ++ promptText))⟩
    else ⟨takeKey a.line b, a.out ++ echoed a.line b⟩

/-- The shell after its banner and its first prompt. -/
def Shell.opened : Shell where
  line := []
  out := chars (lit "Welcome to the JOS kernel monitor!\n") ++
    chars (lit "Type 'help' for a list of commands.\n") ++ promptText

variable {syms : KernSyms} {tf : BitVec 32} {s t u : Editor} {a : Shell} {b : Byte}
  {line keys polls : List Byte} {c : Console}

/-! ### Keys -/

/-- The next key is found behind what is not one. -/
theorem getchar_key (h : polls.filter (· ≠ 0) = b :: keys) :
    ∃ rest, getchar polls = .ok (b.setWidth 32, rest) ∧ rest.filter (· ≠ 0) = keys := by
  induction polls with
  | nil => simp at h
  | cons p polls ih =>
    by_cases hp : p = 0
    · rw [List.filter_cons_of_neg (by simpa using hp)] at h
      obtain ⟨rest, hget, hrest⟩ := ih h
      exact ⟨rest, by rw [getchar, if_pos hp, hget], hrest⟩
    · rw [List.filter_cons_of_pos (by simpa using hp)] at h
      obtain ⟨rfl, hrest⟩ := List.cons.inj h
      exact ⟨polls, by rw [getchar, if_neg hp], hrest⟩

theorem getchar_none (h : polls.filter (· ≠ 0) = []) : getchar polls = .error .fuel := by
  induction polls with
  | nil => rfl
  | cons p polls ih =>
    by_cases hp : p = 0
    · rw [List.filter_cons_of_neg (by simpa using hp)] at h
      rw [getchar, if_pos hp, ih h]
    · rw [List.filter_cons_of_pos (by simpa using hp)] at h
      cases h

/-- A key changes the line and is echoed. -/
theorem Holds.echo (h : Holds s line) (hb : b ≠ 0) (hend : ¬ isEnd b) :
    ∃ t, (∀ n, readlineKey n (iscons 0) (b.setWidth 32) s = .ok (.inl t)) ∧
      Holds t (takeKey line b) ∧ t.polls = s.polls ∧
      t.console = emit cputchar (echoed line b) s.console := by
  have hlen := h.length
  simp only [takeKey, echoed, hlen]
  by_cases herase : isErase b ∧ 0 < s.i
  · rw [if_pos herase, if_pos herase]
    exact ⟨_, fun n => readlineKey_erase herase.1 herase.2, h.erase herase.2 _, rfl, rfl⟩
  · rw [if_neg herase, if_neg herase]
    by_cases hins : chr ' ' ≤ b ∧ s.i < bufLen - 1
    · rw [if_pos hins, if_pos hins]
      exact ⟨_, fun n => readlineKey_insert herase hins.1 hins.2, h.insert hins.2 hb _, rfl, rfl⟩
    · rw [if_neg hins, if_neg hins]
      exact ⟨s, fun n => readlineKey_ignore herase hins hend, h, rfl, rfl⟩

/-- Behind the NUL that ends the line, what was there before is left. -/
theorem Holds.array (h : Holds s line) (i : ℕ) (c : Console) :
    ∃ post, Editor.array { s with buf := Function.update s.buf s.i 0, i := i, console := c } =
      line ++ 0 :: post := by
  have hlt := h.lt
  obtain ⟨m, hm⟩ : ∃ m, bufLen = s.i + 1 + m := ⟨bufLen - (s.i + 1), by omega⟩
  refine ⟨(List.range m).map fun k => Function.update s.buf s.i 0 (s.i + 1 + k), ?_⟩
  change (List.range bufLen).map (Function.update s.buf s.i 0) = _
  rw [hm, List.range_add, List.map_append, List.range_succ, List.map_append, map_update, ← h.eq,
    List.append_assoc, List.map_singleton, Function.update_self, List.map_map]
  rfl

/-! ### The monitor follows the shell -/

/-- The monitor waits in `u`, and all that the shell has printed is on the console. -/
structure Follows (syms : KernSyms) (tf : BitVec 32) (s : Editor) (a : Shell) (u : Editor) :
    Prop where
  waits : Waits syms tf s u
  holds : Holds u a.line
  console : u.console = emit cputchar a.out s.console

theorem emits_prompt : Emits (lit "%s") [.str (some (cstr (lit "K> ")))] promptText :=
  (Part.string (u := lit "K> ") (by simp [lit]) (by simp [lit]) []).emits

theorem emits_welcome : Emits (lit "Welcome to the JOS kernel monitor!\n") []
    (chars (lit "Welcome to the JOS kernel monitor!\n")) :=
  (part_text "Welcome to the JOS kernel monitor!\n" (by simp [lit, chr])).emits

theorem emits_hint : Emits (lit "Type 'help' for a list of commands.\n") []
    (chars (lit "Type 'help' for a list of commands.\n")) :=
  (part_text "Type 'help' for a list of commands.\n" (by simp [lit, chr])).emits

theorem follows_opened (syms : KernSyms) (tf : BitVec 32) (s : Editor) :
    ∃ u, Follows syms tf s .opened u ∧ u.polls = s.polls := by
  refine ⟨_, ⟨⟨_, _, _, _, emits_welcome.prints _, emits_hint.prints _, .refl,
    emits_prompt.prints _, .refl⟩, ⟨rfl, ?_, List.not_mem_nil⟩, ?_⟩, rfl⟩
  · change 0 < bufLen
    decide
  · rw [Shell.opened, emit_append, emit_append]

/-- A key that does not end the line keeps the monitor in `readline`. -/
theorem Follows.edit (h : Follows syms tf s a u) (hkeys : u.polls.filter (· ≠ 0) = b :: keys)
    (hb : b ≠ 0) (hend : ¬ isEnd b) :
    ∃ v, Follows syms tf s ((shell syms).step a b) v ∧ v.polls.filter (· ≠ 0) = keys := by
  obtain ⟨rest, hget, hrest⟩ := getchar_key hkeys
  have hholds : Holds { u with polls := rest } a.line := ⟨h.holds.eq, h.holds.lt, h.holds.nonzero⟩
  obtain ⟨v, hkey, hv, hpolls, hconsole⟩ := hholds.echo hb hend
  obtain ⟨c₁, c₂, t, c, hwelcome, hhint, hrounds, hprompt, htyping⟩ := h.waits
  have hbody : ∀ n, typing n u = .ok (.inl v) := by
    intro n
    rw [typing, readlineBody, hget]
    exact hkey n
  have hstep : (shell syms).step a b = ⟨takeKey a.line b, a.out ++ echoed a.line b⟩ := if_neg hend
  rw [hstep]
  refine ⟨v, ⟨?_, hv, ?_⟩, by rw [hpolls]; exact hrest⟩
  · exact ⟨c₁, c₂, t, c, hwelcome, hhint, hrounds, hprompt,
      htyping.step ((Settles.const _).congr hbody)⟩
  · rw [hconsole, emit_append, ← h.console]

/-- What `readline` returns from where it waits. -/
theorem readline_from {v : Editor}
    (hprompt : Prints (lit "%s") [.str (some (cstr (lit "K> ")))] t.console c)
    (htyping : Rounds typing { t with console := c, i := 0 } u)
    (hlast : ∀ n, typing n u = .ok (.inr (some (), v))) :
    Settles (fun n => readline n (some (cstr (lit "K> "))) t) (.ok (some (), v)) := by
  obtain ⟨r, hprompt⟩ := hprompt
  have hloop := htyping.settles (.exit ((Settles.const _).congr hlast))
  exact (hprompt.view Prod.snd).bind hloop.settles

/-- A pass of the monitor whose command asks for another line. -/
theorem monitorBody_pass {v : Editor} {buf : List Byte}
    (hread : Settles (fun n => readline n (some (cstr (lit "K> "))) t) (.ok (some (), v)))
    (hrun : Settles (fun n => runcmd (commands syms) n v.array tf v.console) (.ok (0, buf, c))) :
    Settles (fun n => monitorBody syms tf n t)
      (.ok (.inl { v.setArray buf with console := c })) := by
  refine hread.bind (hrun.bind ?_)
  exact .const _

/-- The key that ends the line has it answered, and the prompt comes again. -/
theorem Follows.enter (h : Follows syms tf s a u) (hkeys : u.polls.filter (· ≠ 0) = b :: keys)
    (hend : isEnd b) :
    ∃ v, Follows syms tf s ((shell syms).step a b) v ∧ v.polls.filter (· ≠ 0) = keys := by
  obtain ⟨rest, hget, hrest⟩ := getchar_key hkeys
  obtain ⟨c₁, c₂, t, c, hwelcome, hhint, hrounds, hprompt, htyping⟩ := h.waits
  have hholds : Holds { u with polls := rest } a.line := ⟨h.holds.eq, h.holds.lt, h.holds.nonzero⟩
  let v : Editor := ⟨Function.update u.buf u.i 0, u.i, rest, cputchar (chr '\n') u.console⟩
  have hbody : ∀ n, typing n u = .ok (.inr (some (), v)) := by
    intro n
    rw [typing, readlineBody, hget]
    exact readlineKey_end (s := { u with polls := rest }) hend h.holds.lt
  have hread := readline_from hprompt htyping hbody
  have hshort : a.line.length < 2 ^ 31 := by
    rw [h.holds.length]
    exact Nat.lt_trans h.holds.lt (by decide)
  obtain ⟨post, harray⟩ := hholds.array u.i v.console
  obtain ⟨buf, hrun⟩ := runcmd_answers syms h.holds.nonzero hshort post tf v.console
  rw [← harray] at hrun
  have hpass := hrounds.step (monitorBody_pass hread hrun)
  have hstep : (shell syms).step a b =
      ⟨[], a.out ++ (chr '\n' :: (answer syms a.line ++ promptText))⟩ := if_pos hend
  rw [hstep]
  refine ⟨_, ⟨⟨c₁, c₂, _, _, hwelcome, hhint, hpass, emits_prompt.prints _, .refl⟩,
    ⟨rfl, ?_, List.not_mem_nil⟩, ?_⟩, hrest⟩
  · change 0 < bufLen
    decide
  · change emit cputchar promptText (emit cputchar (answer syms a.line)
      (cputchar (chr '\n') u.console)) = _
    rw [emit_append, ← h.console, ← emit_append]
    rfl

theorem Follows.key (h : Follows syms tf s a u) (hkeys : u.polls.filter (· ≠ 0) = b :: keys) :
    ∃ v, Follows syms tf s ((shell syms).step a b) v ∧ v.polls.filter (· ≠ 0) = keys := by
  have hb : b ≠ 0 := by
    have hmem : b ∈ u.polls.filter (· ≠ 0) := by
      rw [hkeys]
      exact List.mem_cons_self
    simpa using (List.mem_filter.mp hmem).2
  by_cases hend : isEnd b
  · exact h.enter hkeys hend
  · exact h.edit hkeys hb hend

/-- All keys are taken, one after the other. -/
theorem Follows.run (h : Follows syms tf s a u) (hkeys : u.polls.filter (· ≠ 0) = keys) :
    ∃ v, Follows syms tf s ((shell syms).run a keys) v ∧ v.polls.filter (· ≠ 0) = [] := by
  induction keys generalizing a u with
  | nil => exact ⟨u, h, hkeys⟩
  | cons b keys ih =>
    obtain ⟨v, hv, hkeys⟩ := h.key hkeys
    exact ih hv hkeys

/-- Where there is no key, the monitor goes on waiting. -/
theorem Waits.settles (h : Waits syms tf s u) (hkeys : u.polls.filter (· ≠ 0) = []) :
    Settles (fun n => monitor syms tf n s) (.error .fuel) := by
  obtain ⟨c₁, c₂, t, c, ⟨r₁, hwelcome⟩, ⟨r₂, hhint⟩, hrounds, ⟨r, hprompt⟩, htyping⟩ := h
  have hwait : ∀ n, typing n u = .error .fuel := by
    intro n
    rw [typing, readlineBody, getchar_none hkeys]
    rfl
  have hloop := htyping.settles (.fail ((Settles.const _).congr hwait))
  have hread : Settles (fun n => readline n (some (cstr (lit "K> "))) t) (.error .fuel) :=
    (hprompt.view Prod.snd).bind hloop.settles
  have hpass : Settles (fun n => monitorBody syms tf n t) (.error .fuel) := hread.bind_error
  exact hwelcome.bind (hhint.bind (hrounds.settles (.fail hpass)).settles)

theorem follows_all (syms : KernSyms) (tf : BitVec 32) (s : Editor) :
    ∃ u, Follows syms tf s ((shell syms).run .opened (s.polls.filter (· ≠ 0))) u ∧
      u.polls.filter (· ≠ 0) = [] := by
  obtain ⟨u, hu, hpolls⟩ := follows_opened syms tf s
  exact hu.run (congrArg (List.filter _) hpolls)

/-- Whatever keys come, and whatever was in the buffer, the monitor takes them all, the console is
as if the shell had printed to it, and the monitor waits for another key without an end. -/
theorem monitor_follows (syms : KernSyms) (tf : BitVec 32) (s : Editor) :
    ∃ u, Waits syms tf s u ∧ getchar u.polls = .error .fuel ∧
      Holds u ((shell syms).run .opened (s.polls.filter (· ≠ 0))).line ∧
      u.console =
        emit cputchar ((shell syms).run .opened (s.polls.filter (· ≠ 0))).out s.console ∧
      Settles (fun n => monitor syms tf n s) (.error .fuel) := by
  obtain ⟨u, hu, hkeys⟩ := follows_all syms tf s
  exact ⟨u, hu.waits, getchar_none hkeys, hu.holds, hu.console, hu.waits.settles hkeys⟩

end Jos

import Jos.Prog.Words
import Jos.Kern.Pmap
import Jos.Kern.Printf

/-! `kern/monitor.c`: the command interpreter of the kernel monitor. -/
namespace Jos

open Prog

/-- `WHITESPACE`. -/
def whitespace : List Byte := lit "\t\r\n "

abbrev maxArgs : ℕ := 16

/-- A slot of `argv`: not written yet, a null pointer, or a pointer to a position of the buffer. -/
inductive Slot where
  | unset
  | null
  | word (pos : ℕ)
deriving DecidableEq, Repr

/-- The command line as `runcmd` divides it: `argc`, `argv` and the buffer that `argv` points
into. -/
structure Args where
  argc : ℕ
  argv : List Slot
  buf : List Byte
deriving DecidableEq, Repr

/-- An entry of the table of commands; `func` is also given the `Trapframe` pointer. -/
structure Command where
  name : List Byte
  desc : List Byte
  func : ℕ → Args → BitVec 32 → Console → Res (BitVec 32 × Console)
  name_nul : 0 ∉ name

/-! ### The commands -/

/-- What the table of commands says about each of them. -/
def commandTexts : List (List Byte × List Byte) :=
  [(lit "help", lit "Display this list of commands"),
    (lit "kerninfo", lit "Display information about the kernel")]

/-- One `cprintf` after the other. -/
def printLines (fuel : ℕ) : List (List Byte × VaList) → Console → Res Console
  | [], s => pure s
  | (fmt, ap) :: lines, s => do
    let (_, s) ← cprintf fuel (cstr fmt) ap s
    printLines fuel lines s

/-- The lines of `mon_help`, with the arguments of their `cprintf`. -/
def helpLines : List (List Byte × VaList) :=
  commandTexts.map fun (name, desc) =>
    (lit "%s - %s\n", [.str (some (cstr name)), .str (some (cstr desc))])

def monHelp (fuel : ℕ) (_args : Args) (_tf : BitVec 32) (s : Console) :
    Res (BitVec 32 × Console) := do
  let s ← printLines fuel helpLines s
  pure (0, s)

/-- The addresses that the linker gives the kernel's symbols. -/
structure KernSyms where
  start : BitVec 32
  entry : BitVec 32
  etext : BitVec 32
  edata : BitVec 32
  kernEnd : BitVec 32
deriving DecidableEq, Repr

/-- `ROUNDUP(a, n)`. -/
def roundup (a n : BitVec 32) : BitVec 32 := (a + n - 1) - (a + n - 1) % n

/-- The lines of `mon_kerninfo`, whose pointers `%08x` takes as unsigned integers. -/
def kerninfoLines (syms : KernSyms) : List (List Byte × VaList) :=
  [(lit "Special kernel symbols:\n", []),
    (lit "  _start                  %08x (phys)\n", [.int syms.start]),
    (lit "  entry  %08x (virt)  %08x (phys)\n", [.int syms.entry, .int (syms.entry - kernBase)]),
    (lit "  etext  %08x (virt)  %08x (phys)\n", [.int syms.etext, .int (syms.etext - kernBase)]),
    (lit "  edata  %08x (virt)  %08x (phys)\n", [.int syms.edata, .int (syms.edata - kernBase)]),
    (lit "  end    %08x (virt)  %08x (phys)\n",
      [.int syms.kernEnd, .int (syms.kernEnd - kernBase)]),
    (lit "Kernel executable memory footprint: %dKB\n",
      [.int ((roundup (syms.kernEnd - syms.entry) 1024).sdiv 1024)])]

def monKerninfo (syms : KernSyms) (fuel : ℕ) (_args : Args) (_tf : BitVec 32) (s : Console) :
    Res (BitVec 32 × Console) := do
  let s ← printLines fuel (kerninfoLines syms) s
  pure (0, s)

/-- The table of commands. -/
def commands (syms : KernSyms) : List Command :=
  [⟨lit "help", lit "Display this list of commands", monHelp, by decide⟩,
    ⟨lit "kerninfo", lit "Display information about the kernel", monKerninfo syms, by decide⟩]

/-- `mon_help` prints the table that it is in. -/
theorem commandTexts_eq (syms : KernSyms) :
    commandTexts = (commands syms).map fun c => (c.name, c.desc) := rfl

/-! ### The command interpreter -/

/-- `strchr(WHITESPACE, b)` as a condition. -/
def inWhitespace (fuel : ℕ) (b : Byte) : Res Bool :=
  view Option.isSome (strchr fuel (cstr whitespace) b)

/-- Gobble whitespace: one pass of `while (*buf && strchr(WHITESPACE, *buf)) *buf++ = 0`. -/
def gobbleBody (fuel : ℕ) :
    List Byte × ℕ → Res (List Byte × ℕ ⊕ List Byte × ℕ)
  | (buf, pos) => do
    let b ← peek buf pos
    if b = 0 then pure (.inr (buf, pos))
    else do
      let white ← inWhitespace fuel b
      if white then do
        let buf ← poke buf pos 0
        pure (.inl (buf, pos + 1))
      else pure (.inr (buf, pos))

/-- Scan past an argument: one pass of `while (*buf && !strchr(WHITESPACE, *buf)) buf++`. -/
def scanBody (fuel : ℕ) (buf : List Byte) (pos : ℕ) : Res (ℕ ⊕ ℕ) := do
  let b ← peek buf pos
  if b = 0 then pure (.inr pos)
  else do
    let white ← inWhitespace fuel b
    if white then pure (.inr pos) else pure (.inl (pos + 1))

/-- Save and scan past the argument at which `buf` points. The loop ends at the end of the buffer,
or with `true` when there are too many arguments. -/
def saveArg (fuel : ℕ) (a : Args) (pos : ℕ) : Res (Args × ℕ ⊕ Bool × Args) := do
  let b ← peek a.buf pos
  if b = 0 then pure (.inr (false, a))
  else if a.argc = maxArgs - 1 then pure (.inr (true, a))
  else do
    let argv ← poke a.argv a.argc (.word pos)
    let pos ← loop (scanBody fuel a.buf) fuel pos
    pure (.inl ({ a with argc := a.argc + 1, argv := argv }, pos))

/-- One pass of the loop that divides the buffer. -/
def parseBody (fuel : ℕ) : Args × ℕ → Res (Args × ℕ ⊕ Bool × Args)
  | (a, pos) => do
    let (buf, pos) ← loop (gobbleBody fuel) fuel (a.buf, pos)
    saveArg fuel { a with buf := buf } pos

/-- Parse the command buffer into whitespace-separated arguments. -/
def parse (fuel : ℕ) (buf : List Byte) : Res (Bool × Args) := do
  let argv ← poke (List.replicate maxArgs .unset) 0 .null
  loop (parseBody fuel) fuel (⟨0, argv, buf⟩, 0)

/-- The string that a slot of `argv` points to. -/
def Args.arg (a : Args) (i : ℕ) : Res (List Byte) :=
  match a.argv[i]? with
  | some (.word pos) => .ok (a.buf.drop pos)
  | _ => .error .fault

/-- The first command with the name `p`. -/
def lookup (fuel : ℕ) (p : List Byte) : List Command → Res (Option Command)
  | [] => pure none
  | c :: table => do
    let v ← strcmp fuel p (cstr c.name)
    if v = 0 then pure (some c) else lookup fuel p table

/-- Call the command that was found, or report that there is none with the name `p`: what `runcmd`
returns, the buffer and the console. -/
def call (fuel : ℕ) (a : Args) (tf : BitVec 32) (s : Console) (p : List Byte) :
    Option Command → Res (BitVec 32 × List Byte × Console)
  | some c => do
    let (r, s) ← c.func fuel a tf s
    pure (r, a.buf, s)
  | none => do
    let (_, s) ← cprintf fuel (cstr (lit "Unknown command '%s'\n")) [.str (some p)] s
    pure (0, a.buf, s)

/-- Lookup and invoke the command. -/
def invoke (table : List Command) (fuel : ℕ) (a : Args) (tf : BitVec 32) (s : Console) :
    Res (BitVec 32 × List Byte × Console) :=
  if a.argc = 0 then pure (0, a.buf, s)
  else do
    let p ← a.arg 0
    let c ← lookup fuel p table
    call fuel a tf s p c

def runcmd (table : List Command) (fuel : ℕ) (buf : List Byte) (tf : BitVec 32) (s : Console) :
    Res (BitVec 32 × List Byte × Console) := do
  let (tooMany, a) ← parse fuel buf
  if tooMany then do
    let (_, s) ← cprintf fuel (cstr (lit "Too many arguments (max %d)\n")) [.int 16] s
    pure (0, a.buf, s)
  else do
    let argv ← poke a.argv a.argc .null
    invoke table fuel { a with argv := argv } tf s

variable {b c : Byte} {u w s pre post : List Byte} {acc : List ℕ} {x : Slot}

/-! ### Whitespace -/

def isSpace (b : Byte) : Bool := whitespace.contains b

theorem inWhitespace_settles (b : Byte) :
    Settles (fun n => inWhitespace n b) (.ok (isSpace b)) := by
  have hfound : (whitespace.idxOf? b).isSome = isSpace b := by
    rw [Bool.eq_iff_iff, List.isSome_idxOf?, isSpace, List.contains_iff_mem]
  rw [← hfound]
  have hfind : Settles (fun n => strchr n (cstr whitespace) b) (.ok (whitespace.idxOf? b)) :=
    strchr_settles (by decide)
  exact hfind.view Option.isSome

theorem ne_zero_of_isSpace (h : isSpace b) : b ≠ 0 := by
  rintro rfl
  exact absurd h (by decide)

/-- The buffer as the parser leaves it: every whitespace character is a NUL. -/
def blank (s : List Byte) : List Byte := s.map fun b => if isSpace b then 0 else b

theorem blank_append (s t : List Byte) : blank (s ++ t) = blank s ++ blank t := List.map_append

theorem length_blank : (blank s).length = s.length := List.length_map _

theorem blank_plain (hw : ∀ b ∈ w, ¬ isSpace b) : blank w = w := by
  induction w with
  | nil => rfl
  | cons b w ih =>
    have hb := hw b List.mem_cons_self
    rw [blank, List.map_cons, if_neg hb]
    exact congrArg (b :: ·) (ih fun a ha => hw a (List.mem_cons_of_mem b ha))

theorem gobbleBody_next (hb : isSpace b) :
    Settles (fun n => gobbleBody n (pre ++ b :: post, pre.length))
      (.ok (.inl (pre ++ 0 :: post, pre.length + 1))) := by
  simp only [gobbleBody, peek_append, ok_bind, if_neg (ne_zero_of_isSpace hb)]
  refine (inWhitespace_settles b).bind ?_
  simp only [hb, if_true, poke_append, ok_bind]
  exact .const _

theorem gobbleBody_exit (hc : ¬ isSpace c) :
    Settles (fun n => gobbleBody n (pre ++ c :: post, pre.length))
      (.ok (.inr (pre ++ c :: post, pre.length))) := by
  simp only [gobbleBody, peek_append, ok_bind]
  by_cases hc0 : c = 0
  · simp only [if_pos hc0]
    exact .const _
  · simp only [if_neg hc0]
    refine (inWhitespace_settles c).bind ?_
    simp only [if_neg hc]
    exact .const _

theorem gobble_settles (hu : ∀ b ∈ u, isSpace b) (hc : ¬ isSpace c) (pre post : List Byte) :
    LoopSettles gobbleBody (pre ++ (u ++ c :: post), pre.length)
      (.ok (pre ++ (blank u ++ c :: post), pre.length + u.length)) := by
  induction u generalizing pre with
  | nil => exact .exit (gobbleBody_exit hc)
  | cons b u ih =>
    have hb := hu b List.mem_cons_self
    have hnext := ih (fun a ha => hu a (List.mem_cons_of_mem b ha)) (pre ++ [0])
    have hblank : blank (b :: u) = 0 :: blank u := by rw [blank, List.map_cons, if_pos hb]; rfl
    have hlen : pre.length + (b :: u).length = (pre ++ [0]).length + u.length := by
      simp only [List.length_cons, List.length_append, List.length_nil]
      omega
    rw [hblank, hlen]
    refine .next (gobbleBody_next hb) ?_
    simpa using hnext

theorem scanBody_next (hb0 : b ≠ 0) (hb : ¬ isSpace b) :
    Settles (fun n => scanBody n (pre ++ b :: post) pre.length) (.ok (.inl (pre.length + 1))) := by
  simp only [scanBody, peek_append, ok_bind, if_neg hb0]
  refine (inWhitespace_settles b).bind ?_
  simp only [if_neg hb]
  exact .const _

theorem scanBody_exit (hc : c = 0 ∨ isSpace c) :
    Settles (fun n => scanBody n (pre ++ c :: post) pre.length) (.ok (.inr pre.length)) := by
  simp only [scanBody, peek_append, ok_bind]
  rcases hc with hc | hc
  · simp only [if_pos hc]
    exact .const _
  · simp only [if_neg (ne_zero_of_isSpace hc)]
    refine (inWhitespace_settles c).bind ?_
    simp only [if_pos hc]
    exact .const _

theorem scanWord_settles (hw0 : 0 ∉ w) (hw : ∀ b ∈ w, ¬ isSpace b) (hc : c = 0 ∨ isSpace c)
    (pre post : List Byte) :
    LoopSettles (fun n => scanBody n (pre ++ (w ++ c :: post))) pre.length
      (.ok (pre.length + w.length)) := by
  induction w generalizing pre with
  | nil => exact .exit (scanBody_exit hc)
  | cons b w ih =>
    have hb0 : b ≠ 0 := fun h => hw0 (h ▸ List.mem_cons_self)
    have hnext := ih (fun h => hw0 (List.mem_cons_of_mem b h))
      (fun a ha => hw a (List.mem_cons_of_mem b ha)) (pre ++ [b])
    have hlen : pre.length + (b :: w).length = (pre ++ [b]).length + w.length := by
      simp only [List.length_cons, List.length_append, List.length_nil]
      omega
    rw [hlen]
    refine .next (scanBody_next hb0 (hw b List.mem_cons_self)) ?_
    simpa using hnext

/-! ### Dividing the buffer -/

/-- After the words that begin at `acc`; `x` is in the slot of the next one. -/
def divided (acc : List ℕ) (x : Slot) (buf : List Byte) : Args where
  argc := acc.length
  argv := acc.map .word ++ x :: List.replicate (maxArgs - 1 - acc.length) .unset
  buf := buf

/-- What comes after a word. -/
theorem exists_end (post : List Byte) (hs : ∀ a ∈ s.head?, isSpace a) :
    ∃ c rest, s ++ 0 :: post = c :: rest ∧ (c = 0 ∨ isSpace c) := by
  cases s with
  | nil => exact ⟨0, post, rfl, .inl rfl⟩
  | cons c s => exact ⟨c, s ++ 0 :: post, rfl, .inr (hs c rfl)⟩

theorem poke_divided (y : Slot) (buf : List Byte) :
    poke (divided acc x buf).argv acc.length y = .ok (divided acc y buf).argv := by
  have h := poke_append (acc.map Slot.word) y x
    (List.replicate (maxArgs - 1 - acc.length) Slot.unset)
  rwa [List.length_map] at h

theorem divided_word (hacc : acc.length < maxArgs - 1) (i : ℕ) (buf : List Byte) :
    (⟨acc.length + 1, (divided acc (.word i) buf).argv, buf⟩ : Args) =
      divided (acc ++ [i]) .unset buf := by
  have hslots : maxArgs - 1 - acc.length = maxArgs - 1 - (acc.length + 1) + 1 := by omega
  simp only [divided, List.length_append, List.length_singleton, List.map_append, List.map_cons,
    List.map_nil, List.append_assoc, List.singleton_append]
  rw [hslots, List.replicate_succ]

theorem saveArg_done (n : ℕ) : saveArg n (divided acc x (pre ++ 0 :: post)) pre.length =
    .ok (.inr (false, divided acc x (pre ++ 0 :: post))) := by
  have hpeek : peek (divided acc x (pre ++ 0 :: post)).buf pre.length = .ok 0 :=
    peek_append pre 0 post
  rw [saveArg, hpeek, ok_bind, if_pos rfl]
  rfl

/-- There is a word more than there are slots. -/
theorem saveArg_full (hacc : acc.length = maxArgs - 1) (hb : b ≠ 0) (n : ℕ) :
    saveArg n (divided acc x (pre ++ b :: post)) pre.length =
      .ok (.inr (true, divided acc x (pre ++ b :: post))) := by
  have hpeek : peek (divided acc x (pre ++ b :: post)).buf pre.length = .ok b :=
    peek_append pre b post
  have hargc : (divided acc x (pre ++ b :: post)).argc = maxArgs - 1 := hacc
  rw [saveArg, hpeek, ok_bind, if_neg hb, if_pos hargc]
  rfl

/-- The word that begins at `i` is saved, and the buffer stands where the scan ends. -/
theorem saveArg_saves {buf : List Byte} {i j : ℕ} (hacc : acc.length < maxArgs - 1)
    (hpeek : peek buf i = .ok b) (hb : b ≠ 0)
    (hscan : Settles (fun n => loop (scanBody n buf) n i) (.ok j)) :
    Settles (fun n => saveArg n (divided acc x buf) i)
      (.ok (.inl (divided (acc ++ [i]) .unset buf, j))) := by
  have hargc : ¬ (divided acc x buf).argc = maxArgs - 1 := Nat.ne_of_lt hacc
  have hrun (n : ℕ) : saveArg n (divided acc x buf) i = loop (scanBody n buf) n i >>= fun j =>
      .ok (.inl (⟨acc.length + 1, (divided acc (.word i) buf).argv, buf⟩, j)) := by
    have hpoke : poke (divided acc x buf).argv (divided acc x buf).argc (.word i) =
        .ok (divided acc (.word i) buf).argv := poke_divided _ _
    have hpeek' : peek (divided acc x buf).buf i = .ok b := hpeek
    rw [saveArg, hpeek', ok_bind, if_neg hb, if_neg hargc, hpoke]
    rfl
  rw [← divided_word hacc]
  refine Settles.congr ?_ hrun
  exact hscan.bind (.const _)

theorem saveArg_next (pre post : List Byte) (x : Slot) (hacc : acc.length < maxArgs - 1)
    (hne : w ≠ []) (hw0 : 0 ∉ w) (hw : ∀ b ∈ w, ¬ isSpace b) (hc : c = 0 ∨ isSpace c) :
    Settles (fun n => saveArg n (divided acc x (pre ++ (w ++ c :: post))) pre.length)
      (.ok (.inl (divided (acc ++ [pre.length]) .unset (pre ++ (w ++ c :: post)),
        pre.length + w.length))) := by
  have hscan := (scanWord_settles hw0 hw hc pre post).settles
  obtain ⟨b, w, rfl⟩ := List.exists_cons_of_ne_nil hne
  have hb : b ≠ 0 := fun h => hw0 (h ▸ List.mem_cons_self)
  exact saveArg_saves hacc (peek_append pre b (w ++ c :: post)) hb hscan

/-- The whitespace is gobbled first. -/
theorem parseBody_gobbles {r : Args × ℕ ⊕ Bool × Args} (hu : ∀ b ∈ u, isSpace b)
    (hc : ¬ isSpace c)
    (h : Settles (fun n => saveArg n (divided acc x (pre ++ blank u ++ c :: post))
      (pre ++ blank u).length) (.ok r)) :
    Settles (fun n => parseBody n (divided acc x (pre ++ (u ++ c :: post)), pre.length))
      (.ok r) := by
  have hgobble := gobble_settles hu hc pre post
  rw [← List.append_assoc pre (blank u), ← length_blank (s := u), ← List.length_append] at hgobble
  exact hgobble.settles.bind h

/-- A pass that finds a word. -/
theorem parseBody_next (pre post : List Byte) (x : Slot) (hacc : acc.length < maxArgs - 1)
    (hu : ∀ b ∈ u, isSpace b) (hne : w ≠ []) (hw0 : 0 ∉ w)
    (hw : ∀ b ∈ w, ¬ isSpace b) (hs : ∀ a ∈ s.head?, isSpace a) :
    Settles (fun n => parseBody n
        (divided acc x (pre ++ (u ++ (w ++ (s ++ 0 :: post)))), pre.length))
      (.ok (.inl (divided (acc ++ [(pre ++ blank u).length]) .unset
        (pre ++ blank u ++ w ++ (s ++ 0 :: post)), (pre ++ blank u ++ w).length))) := by
  obtain ⟨c, rest, hrest, hc⟩ := exists_end post hs
  have hnext := saveArg_next (pre ++ blank u) rest x hacc hne hw0 hw hc
  have hlen : (pre ++ blank u ++ w).length = (pre ++ blank u).length + w.length :=
    List.length_append
  rw [hrest, List.append_assoc (pre ++ blank u), hlen]
  obtain ⟨b, w, rfl⟩ := List.exists_cons_of_ne_nil hne
  exact parseBody_gobbles hu (hw b List.mem_cons_self) hnext

/-! ### The words of the buffer -/

theorem startsFrom_word_after (pre : List Byte) (hu : ∀ b ∈ u, isSpace b) (hne : w ≠ [])
    (hw : ∀ b ∈ w, ¬ isSpace b) (hs : ∀ a ∈ s.head?, isSpace a) :
    startsFrom isSpace true pre.length (u ++ (w ++ s)) =
      (pre ++ blank u).length :: startsFrom isSpace true (pre ++ blank u ++ w).length s := by
  rw [startsFrom_skip hu hne hw hs]
  simp only [List.length_append, length_blank]

/-- With slots for all its words, the buffer is divided at each of them. -/
theorem parse_fits (pre post : List Byte) (acc : List ℕ) (x : Slot) (hs : 0 ∉ s)
    (hroom : acc.length + (startsFrom isSpace true pre.length s).length < maxArgs) :
    ∃ y, LoopSettles parseBody (divided acc x (pre ++ (s ++ 0 :: post)), pre.length)
      (.ok (false, divided (acc ++ startsFrom isSpace true pre.length s) y
        (pre ++ (blank s ++ 0 :: post)))) := by
  induction s using wordsInduction isSpace generalizing pre acc x with
  | seps u hu =>
    have hnone : startsFrom isSpace true pre.length u = [] := startsFrom_of_seps hu
    refine ⟨x, .exit (parseBody_gobbles hu (by decide) ?_)⟩
    rw [hnone, List.append_nil, ← List.append_assoc]
    exact (Settles.const _).congr saveArg_done
  | word u w s hu hne hw hend ih =>
    have hstarts := startsFrom_word_after pre hu hne hw hend
    have hblank : blank (u ++ (w ++ s)) = blank u ++ (w ++ blank s) := by
      rw [blank_append, blank_append, blank_plain hw]
    rw [hstarts, List.length_cons] at hroom
    have hw0 : 0 ∉ w := fun h => hs (List.mem_append_right _ (List.mem_append_left _ h))
    have hs0 : 0 ∉ s := fun h => hs (List.mem_append_right _ (List.mem_append_right _ h))
    have hlen : (acc ++ [(pre ++ blank u).length]).length = acc.length + 1 :=
      List.length_append
    obtain ⟨y, hy⟩ := ih (pre ++ blank u ++ w) (acc ++ [(pre ++ blank u).length]) .unset hs0
      (by omega)
    have hacc : acc.length < maxArgs - 1 := by omega
    have hstep := parseBody_next pre post x hacc hu hne hw0 hw hend
    rw [hstarts, hblank]
    simp only [List.append_assoc, List.singleton_append] at hy hstep ⊢
    exact ⟨y, .next hstep hy⟩

/-- Where the slots do not suffice, the word that has none is found, and the buffer is divided up
to it. -/
theorem parse_overflows (pre post : List Byte) (acc : List ℕ) (x : Slot) (hs : 0 ∉ s)
    (hacc : acc.length < maxArgs)
    (hroom : maxArgs ≤ acc.length + (startsFrom isSpace true pre.length s).length) :
    ∃ k a, a.buf = pre ++ (blank (s.take k) ++ (s.drop k ++ 0 :: post)) ∧
      LoopSettles parseBody (divided acc x (pre ++ (s ++ 0 :: post)), pre.length)
        (.ok (true, a)) := by
  induction s using wordsInduction isSpace generalizing pre acc x with
  | seps u hu =>
    have hnone : startsFrom isSpace true pre.length u = [] := startsFrom_of_seps hu
    rw [hnone, List.length_nil] at hroom
    omega
  | word u w s hu hne hw hend ih =>
    have hw0 : 0 ∉ w := fun h => hs (List.mem_append_right _ (List.mem_append_left _ h))
    by_cases hfull : acc.length = maxArgs - 1
    · have hsplit : u ++ (w ++ s) ++ 0 :: post = u ++ (w ++ (s ++ 0 :: post)) := by
        rw [List.append_assoc, List.append_assoc]
      refine ⟨u.length, divided acc x (pre ++ (blank u ++ (w ++ (s ++ 0 :: post)))), ?_, ?_⟩
      · rw [List.take_left, List.drop_left, List.append_assoc]
        rfl
      · obtain ⟨b, w, rfl⟩ := List.exists_cons_of_ne_nil hne
        have hb : b ≠ 0 := fun h => hw0 (h ▸ List.mem_cons_self)
        rw [hsplit, ← List.append_assoc pre (blank u)]
        exact .exit (parseBody_gobbles hu (hw b List.mem_cons_self)
          ((Settles.const _).congr (saveArg_full hfull hb)))
    · rw [startsFrom_word_after pre hu hne hw hend, List.length_cons] at hroom
      have hs0 : 0 ∉ s := fun h => hs (List.mem_append_right _ (List.mem_append_right _ h))
      have hacc' : acc.length < maxArgs - 1 := by omega
      have hlen : (acc ++ [(pre ++ blank u).length]).length = acc.length + 1 :=
        List.length_append
      obtain ⟨k, a, hbuf, ha⟩ := ih (pre ++ blank u ++ w) (acc ++ [(pre ++ blank u).length]) .unset
        hs0 (by omega) (by omega)
      have hstep := parseBody_next pre post x hacc' hu hne hw0 hw hend
      refine ⟨u.length + (w.length + k), a, ?_, ?_⟩
      · rw [hbuf, List.take_length_add_append, List.take_length_add_append,
          List.drop_length_add_append, List.drop_length_add_append, blank_append, blank_append,
          blank_plain hw]
        simp only [List.append_assoc]
      · simp only [List.append_assoc] at ha hstep ⊢
        exact .next hstep ha

/-! ### Lookup and invocation -/

theorem lookup_settles (hw : 0 ∉ w) (rest : List Byte) (table : List Command) :
    Settles (fun n => lookup n (w ++ 0 :: rest) table)
      (.ok (table.find? fun c => c.name = w)) := by
  induction table with
  | nil => exact .const _
  | cons c table ih =>
    have hcmp : Settles (fun n => strcmp n (w ++ 0 :: rest) (cstr c.name))
        (.ok (difference w c.name)) := strcmp_settles hw c.name_nul
    have hzero := difference_eq_zero hw c.name_nul
    refine hcmp.bind ?_
    by_cases hname : c.name = w
    · rw [List.find?_cons_of_pos (by simpa using hname)]
      simp only [if_pos (hzero.mpr hname.symm)]
      exact .const _
    · rw [List.find?_cons_of_neg (by simpa using hname)]
      simp only [if_neg fun h => hname (hzero.mp h).symm]
      exact ih

/-- A command is handed the words of `s` in order, each with a NUL after it, and nothing else of
the buffer is changed. -/
structure Handed (s post : List Byte) (a : Args) : Prop where
  argc : a.argc = (words isSpace s).length
  argv : ∀ (i p : ℕ) (w : List Byte), (words isSpace s)[i]? = some (p, w) →
    a.argv[i]? = some (Slot.word p) ∧ ∃ rest, a.buf.drop p = w ++ 0 :: rest
  null : a.argv[a.argc]? = some Slot.null
  slots : a.argv.length = maxArgs
  buf : a.buf = blank s ++ 0 :: post

/-- The words that a command is handed. -/
def handed (s post : List Byte) : Args := divided (starts isSpace s) .null (blank s ++ 0 :: post)

theorem length_words : (words isSpace s).length = (starts isSpace s).length := List.length_map _

/-- A word is still in its place, and a NUL after it. -/
theorem blank_drop {p : ℕ} (h : IsRun isSpace s p w) (post : List Byte) :
    ∃ rest, (blank s ++ 0 :: post).drop p = w ++ 0 :: rest := by
  obtain ⟨⟨u, t, rfl, rfl, -, ht⟩, -, hw⟩ := h
  obtain ⟨rest, hrest⟩ : ∃ rest, blank t ++ 0 :: post = 0 :: rest := by
    cases t with
    | nil => exact ⟨post, rfl⟩
    | cons c t =>
      refine ⟨blank t ++ 0 :: post, ?_⟩
      rw [blank, List.map_cons, if_pos (ht c rfl)]
      rfl
  refine ⟨rest, ?_⟩
  rw [← hrest, blank_append, blank_append, blank_plain hw, ← length_blank (s := u),
    List.append_assoc, List.append_assoc, List.drop_left]

theorem handed_ok (post : List Byte) (hroom : (words isSpace s).length < maxArgs) :
    Handed s post (handed s post) where
  argc := length_words.symm
  argv i p w h := by
    have hp : (starts isSpace s)[i]? = some p := by
      rw [words, List.getElem?_map] at h
      obtain ⟨q, hq, heq⟩ := Option.map_eq_some_iff.mp h
      rw [hq, (Prod.mk.inj heq).1]
    have hlt : i < (starts isSpace s).length := (List.getElem?_eq_some_iff.mp hp).1
    refine ⟨?_, blank_drop (mem_words.mp (List.mem_of_getElem? h)) post⟩
    rw [handed, divided, List.getElem?_append_left (by rwa [List.length_map]), List.getElem?_map,
      hp]
    rfl
  null := by
    rw [handed, divided, List.getElem?_append_right (by rw [List.length_map]), List.length_map,
      Nat.sub_self]
    rfl
  slots := by
    rw [length_words] at hroom
    simp only [handed, divided, List.length_append, List.length_map, List.length_cons,
      List.length_replicate]
    omega
  buf := rfl

section

variable {table : List Command} {tf : BitVec 32} {t : Console} {a : Args}

theorem invoke_nothing (h : a.argc = 0) (n : ℕ) : invoke table n a tf t = .ok (0, a.buf, t) :=
  if_pos h

theorem invoke_lookup {p : ℕ} {rest : List Byte} (hw : 0 ∉ w) (hargc : a.argc ≠ 0)
    (harg : a.argv[0]? = some (Slot.word p)) (hstr : a.buf.drop p = w ++ 0 :: rest) :
    SettlesAs (fun n => invoke table n a tf t)
      (fun n => call n a tf t (w ++ 0 :: rest) (table.find? fun c => c.name = w)) := by
  have hp : a.arg 0 = .ok (w ++ 0 :: rest) := by
    rw [Args.arg, harg, ← hstr]
  refine (SettlesAs.of_eq fun n => ?_).trans (lookup_settles hw rest table).bind_as
  rw [invoke, if_neg hargc, hp]
  rfl

/-- A word that names no command is reported. -/
theorem call_unknown (tf : BitVec 32) (t : Console) (a : Args) (w rest : List Byte) :
    ∃ t', Prints (lit "Unknown command '%s'\n") [.str (some (w ++ 0 :: rest))] t t' ∧
      Settles (fun n => call n a tf t (w ++ 0 :: rest) none) (.ok (0, a.buf, t')) := by
  have hfit : Fits (formatArgs (lit "Unknown command '%s'\n")) [.str (some (w ++ 0 :: rest))] := by
    refine ⟨fun q hq => ?_, trivial⟩
    obtain rfl := Option.some.inj hq
    exact List.mem_append_right w List.mem_cons_self
  obtain ⟨t', r, hprint⟩ := exists_prints (by decide) hfit t
  exact ⟨t', ⟨r, hprint⟩, hprint.view fun r => (0, a.buf, r.2)⟩

end

theorem parse_settles (hs : 0 ∉ s) (post : List Byte)
    (hroom : (words isSpace s).length < maxArgs) :
    ∃ x, Settles (fun n => parse n (s ++ 0 :: post))
      (.ok (false, divided (starts isSpace s) x (blank s ++ 0 :: post))) := by
  rw [length_words] at hroom
  obtain ⟨x, hx⟩ := parse_fits [] post [] .null hs
    (by rw [List.length_nil, Nat.zero_add]; exact hroom)
  exact ⟨x, hx.settles⟩

theorem parse_refuses (hs : 0 ∉ s) (post : List Byte)
    (hroom : maxArgs ≤ (words isSpace s).length) :
    ∃ k a, a.buf = blank (s.take k) ++ s.drop k ++ 0 :: post ∧
      Settles (fun n => parse n (s ++ 0 :: post)) (.ok (true, a)) := by
  rw [length_words] at hroom
  obtain ⟨k, a, hbuf, ha⟩ := parse_overflows [] post [] .null hs (by decide)
    (by rw [List.length_nil, Nat.zero_add]; exact hroom)
  exact ⟨k, a, by rw [hbuf, List.nil_append, List.append_assoc], ha.settles⟩

/-- Few enough words are handed to the lookup of the command. -/
theorem runcmd_hands (table : List Command) (hs : 0 ∉ s) (post : List Byte) (tf : BitVec 32)
    (t : Console) (hroom : (words isSpace s).length < maxArgs) :
    SettlesAs (fun n => runcmd table n (s ++ 0 :: post) tf t)
      fun n => invoke table n (handed s post) tf t := by
  obtain ⟨x, hparse⟩ := parse_settles hs post hroom
  refine hparse.bind_as.trans (.of_eq fun n => ?_)
  change poke _ (starts isSpace s).length Slot.null >>= _ = _
  rw [poke_divided]
  rfl

/-- `runcmd` on any string, whatever comes after it in the array. Up to 15 words are handed to the
first command that has the first word as its name; no command is called for more. -/
theorem runcmd_dispatches (table : List Command) (hs : 0 ∉ s) (post : List Byte) (tf : BitVec 32)
    (t : Console) :
    ((words isSpace s).Pairwise (·.1 < ·.1) ∧
      ∀ i w, (i, w) ∈ words isSpace s ↔ IsRun isSpace s i w) ∧
    ((words isSpace s).length < maxArgs → ∃ a, Handed s post a ∧
      (words isSpace s = [] →
        Settles (fun n => runcmd table n (s ++ 0 :: post) tf t) (.ok (0, a.buf, t))) ∧
      ∀ p w ws, words isSpace s = (p, w) :: ws →
        (∀ c, table.find? (fun c => c.name = w) = some c →
          SettlesAs (fun n => runcmd table n (s ++ 0 :: post) tf t)
            fun n => view (fun r => (r.1, a.buf, r.2)) (c.func n a tf t)) ∧
        (table.find? (fun c => c.name = w) = none → ∃ t',
          Prints (lit "Unknown command '%s'\n") [.str (some (a.buf.drop p))] t t' ∧
            Settles (fun n => runcmd table n (s ++ 0 :: post) tf t) (.ok (0, a.buf, t')))) ∧
    (maxArgs ≤ (words isSpace s).length → ∃ k t',
      Prints (lit "Too many arguments (max %d)\n") [.int 16] t t' ∧
        Settles (fun n => runcmd table n (s ++ 0 :: post) tf t)
          (.ok (0, blank (s.take k) ++ s.drop k ++ 0 :: post, t'))) := by
  refine ⟨⟨List.pairwise_map.mpr starts_pairwise, fun i w => mem_words⟩, fun hroom => ?_,
    fun hroom => ?_⟩
  · have hhanded := handed_ok post hroom
    have hrun := runcmd_hands table hs post tf t hroom
    refine ⟨handed s post, hhanded, ?_, ?_⟩
    · intro hnone
      have hargc : (handed s post).argc = 0 := by rw [hhanded.argc, hnone]; rfl
      exact hrun.settles ((Settles.const _).congr (invoke_nothing hargc))
    · intro p w ws hws
      obtain ⟨harg, rest, hstr⟩ := hhanded.argv 0 p w (by rw [hws]; rfl)
      have hargc : (handed s post).argc ≠ 0 := by
        rw [hhanded.argc, hws]
        exact Nat.succ_ne_zero _
      have hw : 0 ∉ w := by
        have hmem : (p, w) ∈ words isSpace s := hws ▸ List.mem_cons_self
        obtain ⟨⟨u, v, rfl, -⟩, -⟩ := mem_words.mp hmem
        exact fun h => hs (List.mem_append_left _ (List.mem_append_right _ h))
      have hcall := hrun.trans (invoke_lookup hw hargc harg hstr)
      constructor
      · intro c hc
        rw [hc] at hcall
        exact hcall
      · intro hnone
        rw [hnone] at hcall
        obtain ⟨t', hprint, hreport⟩ := call_unknown tf t (handed s post) w rest
        rw [hstr]
        exact ⟨t', hprint, hcall.settles hreport⟩
  · obtain ⟨k, a, hbuf, hparse⟩ := parse_refuses hs post hroom
    have hfit : Fits (formatArgs (lit "Too many arguments (max %d)\n")) [.int 16] :=
      ⟨trivial, trivial⟩
    obtain ⟨t', r, hprint⟩ := exists_prints (by decide) hfit t
    refine ⟨k, t', ⟨r, hprint⟩, ?_⟩
    rw [← hbuf]
    exact hparse.bind (hprint.view fun r => (0, a.buf, r.2))

theorem runcmd_dispatches_help : ∃ a, Handed (lit " help me") [] a ∧
    SettlesAs
      (fun n => runcmd (commands ⟨0, 0, 0, 0, 0⟩) n (lit " help me" ++ 0 :: []) 0 (.zeroed 0))
      fun n => view (fun r => (r.1, a.buf, r.2)) (monHelp n a 0 (.zeroed 0)) := by
  obtain ⟨-, hfew, -⟩ := runcmd_dispatches (commands ⟨0, 0, 0, 0, 0⟩) (s := lit " help me")
    (by decide) [] 0 (.zeroed 0)
  obtain ⟨a, ha, -, hcall⟩ := hfew (by decide)
  obtain ⟨hfound, -⟩ := hcall 1 (lit "help") [(6, lit "me")] (by decide)
  exact ⟨a, ha, hfound _ rfl⟩

end Jos

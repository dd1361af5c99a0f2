import Jos.Kern.Monitor
import Jos.Lib.Compose

/-! What the monitor prints for one command line. -/
namespace Jos

open Prog

variable {f w s : List Byte} {ap : VaList} {o : List (BitVec 32)} {syms : KernSyms}
  {lines : List (List Byte × VaList)} {outs : List (List (BitVec 32))}

/-! ### The texts -/

def helpText : List (BitVec 32) :=
  List.flatten [chars (lit "help - Display this list of commands\n"),
    chars (lit "kerninfo - Display information about the kernel\n")]

/-- A symbol of the kernel, where it is linked and where it is loaded. -/
def symbolText (name : List Byte) (v : BitVec 32) : List (BitVec 32) :=
  chars (lit "  ") ++ chars name ++ chars (lit "  ") ++ chars (hexText v) ++
    chars (lit " (virt)  ") ++ chars (hexText (v - kernBase)) ++ chars (lit " (phys)\n")

def kerninfoText (syms : KernSyms) : List (BitVec 32) :=
  List.flatten [chars (lit "Special kernel symbols:\n"),
    chars (lit "  _start                  ") ++ chars (hexText syms.start) ++
      chars (lit " (phys)\n"),
    symbolText (lit "entry") syms.entry, symbolText (lit "etext") syms.etext,
    symbolText (lit "edata") syms.edata, symbolText (lit "end  ") syms.kernEnd,
    chars (lit "Kernel executable memory footprint: ") ++
      signedText (((roundup (syms.kernEnd - syms.entry) 1024).sdiv 1024).signExtend 64) {} ++
      chars (lit "KB\n")]

/-- What is printed for a line: nothing when it is blank, and a report when it has too many words
or begins with the name of no command. -/
def answer (syms : KernSyms) (line : List Byte) : List (BitVec 32) :=
  if maxArgs ≤ (words isSpace line).length then chars (lit "Too many arguments (max 16)\n")
  else
    match words isSpace line with
    | [] => []
    | (_, w) :: _ =>
      if w = lit "help" then helpText
      else if w = lit "kerninfo" then kerninfoText syms
      else chars (lit "Unknown command '") ++ w.map (BitVec.signExtend 32) ++ chars (lit "'\n")

/-! ### One `cprintf` after the other -/

theorem Emits.prints (h : Emits f ap o) (s : Console) : Prints f ap s (emit cputchar o s) :=
  ⟨_, vcprintf_settles h s⟩

theorem printLines_settles (h : List.Forall₂ (fun l o => Emits l.1 l.2 o) lines outs)
    (s : Console) :
    Settles (fun n => printLines n lines s) (.ok (emit cputchar outs.flatten s)) := by
  induction h generalizing s with
  | nil => exact .const _
  | cons hline _ ih =>
    obtain ⟨r, hprints⟩ := hline.prints s
    rw [List.flatten_cons, emit_append]
    exact hprints.bind (ih _)

theorem part_text (u : String) (h : ∀ c ∈ lit u, c ≠ 0 ∧ c ≠ chr '%') :
    Part (lit u) [] (chars (lit u)) :=
  .text (fun h0 => (h 0 h0).1 rfl) fun c hc => (h c hc).2

/-- A line of `mon_help`. -/
theorem emits_command {name desc : List Byte} (hname : 0 ∉ name) (hdesc : 0 ∉ desc)
    (hlen : name.length < 2 ^ 31) (hlen' : desc.length < 2 ^ 31) :
    Emits (lit "%s - %s\n") [.str (some (cstr name)), .str (some (cstr desc))]
      (name.map (BitVec.signExtend 32) ++ chars (lit " - ") ++
        desc.map (BitVec.signExtend 32) ++ chars (lit "\n")) := by
  have hformat : lit "%s - %s\n" = lit "%s" ++ lit " - " ++ lit "%s" ++ lit "\n" := by simp [lit]
  have hname := Part.string hname hlen []
  have hdesc := Part.string hdesc hlen' []
  rw [hformat]
  exact (((hname.append (part_text " - " (by simp [lit, chr]))).append hdesc).append
    (part_text "\n" (by simp [lit, chr]))).emits

theorem emits_help : List.Forall₂ (fun l o => Emits l.1 l.2 o) helpLines
    [chars (lit "help - Display this list of commands\n"),
      chars (lit "kerninfo - Display information about the kernel\n")] := by
  have hhelp : chars (lit "help - Display this list of commands\n") =
      (lit "help").map (BitVec.signExtend 32) ++ chars (lit " - ") ++
        (lit "Display this list of commands").map (BitVec.signExtend 32) ++ chars (lit "\n") := by
    simp [lit, chars]
  have hinfo : chars (lit "kerninfo - Display information about the kernel\n") =
      (lit "kerninfo").map (BitVec.signExtend 32) ++ chars (lit " - ") ++
        (lit "Display information about the kernel").map (BitVec.signExtend 32) ++
        chars (lit "\n") := by
    simp [lit, chars]
  rw [hhelp, hinfo]
  refine .cons ?_ (.cons ?_ .nil)
  · exact emits_command (by simp [lit]) (by simp [lit]) (by simp [lit]) (by simp [lit])
  · exact emits_command (by simp [lit]) (by simp [lit]) (by simp [lit]) (by simp [lit])

theorem monHelp_settles (a : Args) (tf : BitVec 32) (s : Console) :
    Settles (fun n => monHelp n a tf s) (.ok (0, emit cputchar helpText s)) :=
  (printLines_settles emits_help s).view fun s => (0, s)

/-- A line of `mon_kerninfo` about a symbol, divided into its parts. -/
def symbolLine (name : String) (v : BitVec 32) : List Byte × VaList :=
  (lit "  " ++ lit name ++ lit "  " ++ lit "%08x" ++ lit " (virt)  " ++ lit "%08x" ++
    lit " (phys)\n", [.int v, .int (v - kernBase)])

theorem emits_symbol (name : String) (h : ∀ c ∈ lit name, c ≠ 0 ∧ c ≠ chr '%') (v : BitVec 32) :
    Emits (symbolLine name v).1 (symbolLine name v).2 (symbolText (lit name) v) := by
  have hname := ((part_text "  " (by simp [lit, chr])).append (part_text name h)).append
    (part_text "  " (by simp [lit, chr]))
  have hvirt := (hname.append (.hex v)).append (part_text " (virt)  " (by simp [lit, chr]))
  exact ((hvirt.append (.hex (v - kernBase))).append
    (part_text " (phys)\n" (by simp [lit, chr]))).emits

theorem kerninfoLines_eq (syms : KernSyms) : kerninfoLines syms =
    [(lit "Special kernel symbols:\n", []),
      (lit "  _start                  " ++ lit "%08x" ++ lit " (phys)\n", [.int syms.start]),
      symbolLine "entry" syms.entry, symbolLine "etext" syms.etext, symbolLine "edata" syms.edata,
      symbolLine "end  " syms.kernEnd,
      (lit "Kernel executable memory footprint: " ++ lit "%d" ++ lit "KB\n",
        [.int ((roundup (syms.kernEnd - syms.entry) 1024).sdiv 1024)])] := by
  simp [kerninfoLines, symbolLine, lit]

theorem monKerninfo_settles (syms : KernSyms) (a : Args) (tf : BitVec 32) (s : Console) :
    Settles (fun n => monKerninfo syms n a tf s)
      (.ok (0, emit cputchar (kerninfoText syms) s)) := by
  have hstart := ((part_text "  _start                  " (by simp [lit, chr])).append
    (.hex syms.start)).append (part_text " (phys)\n" (by simp [lit, chr]))
  have hsize := ((part_text "Kernel executable memory footprint: " (by simp [lit, chr])).append
    (.signed ((roundup (syms.kernEnd - syms.entry) 1024).sdiv 1024))).append
    (part_text "KB\n" (by simp [lit, chr]))
  suffices h : List.Forall₂ (fun l o => Emits l.1 l.2 o) (kerninfoLines syms) _ from
    (printLines_settles h s).view fun s => (0, s)
  rw [kerninfoLines_eq]
  refine .cons (part_text "Special kernel symbols:\n" (by simp [lit, chr])).emits ?_
  refine .cons hstart.emits ?_
  refine .cons (emits_symbol "entry" (by simp [lit, chr]) syms.entry) ?_
  refine .cons (emits_symbol "etext" (by simp [lit, chr]) syms.etext) ?_
  refine .cons (emits_symbol "edata" (by simp [lit, chr]) syms.edata) ?_
  refine .cons (emits_symbol "end  " (by simp [lit, chr]) syms.kernEnd) ?_
  exact .cons hsize.emits .nil

/-! ### One command line -/

variable {t : Console} {tf : BitVec 32} {a : Args} {rest : List Byte}

theorem emits_tooMany :
    Emits (lit "Too many arguments (max %d)\n") [.int 16]
      (chars (lit "Too many arguments (max 16)\n")) := by
  have hformat : lit "Too many arguments (max %d)\n" =
      lit "Too many arguments (max " ++ lit "%d" ++ lit ")\n" := by simp [lit]
  have htext : chars (lit "Too many arguments (max 16)\n") =
      chars (lit "Too many arguments (max ") ++
      signedText ((16 : BitVec 32).signExtend 64) {} ++ chars (lit ")\n") := by
    have hnumber : signedText ((16 : BitVec 32).signExtend 64) {} = chars (lit "16") := by decide
    rw [hnumber]
    simp [lit, chars]
  rw [hformat, htext]
  exact (((part_text "Too many arguments (max " (by simp [lit, chr])).append (.signed 16)).append
    (part_text ")\n" (by simp [lit, chr]))).emits

theorem emits_unknown (hw : 0 ∉ w) (hlen : w.length < 2 ^ 31) (rest : List Byte) :
    Emits (lit "Unknown command '%s'\n") [.str (some (w ++ 0 :: rest))]
      (chars (lit "Unknown command '") ++ w.map (BitVec.signExtend 32) ++ chars (lit "'\n")) := by
  have hformat : lit "Unknown command '%s'\n" =
      lit "Unknown command '" ++ lit "%s" ++ lit "'\n" := by simp [lit]
  rw [hformat]
  exact (((part_text "Unknown command '" (by simp [lit, chr])).append
    (.string hw hlen rest)).append (part_text "'\n" (by simp [lit, chr]))).emits

theorem call_command {c : Command} {r : BitVec 32} {u : Console} (p : List Byte)
    (h : Settles (fun n => c.func n a tf t) (.ok (r, u))) :
    Settles (fun n => call n a tf t p (some c)) (.ok (r, a.buf, u)) :=
  h.view fun r => (r.1, a.buf, r.2)

/-- What is found under the first word answers for the line. -/
theorem call_answers (hw : 0 ∉ w) (hlen : w.length < 2 ^ 31) :
    Settles (fun n => call n a tf t (w ++ 0 :: rest) ((commands syms).find? fun c => c.name = w))
      (.ok (0, a.buf, emit cputchar
        (if w = lit "help" then helpText
        else if w = lit "kerninfo" then kerninfoText syms
        else chars (lit "Unknown command '") ++ w.map (BitVec.signExtend 32) ++
          chars (lit "'\n")) t)) := by
  by_cases hhelp : w = lit "help"
  · have hfind : ∃ c, (commands syms).find? (fun c => c.name = w) = some c ∧ c.func = monHelp := by
      subst hhelp
      exact ⟨_, rfl, rfl⟩
    obtain ⟨c, hfind, hfunc⟩ := hfind
    rw [hfind, if_pos hhelp]
    refine call_command _ ?_
    rw [hfunc]
    exact monHelp_settles a tf t
  by_cases hinfo : w = lit "kerninfo"
  · have hfind : ∃ c, (commands syms).find? (fun c => c.name = w) = some c ∧
        c.func = monKerninfo syms := by
      subst hinfo
      exact ⟨_, rfl, rfl⟩
    obtain ⟨c, hfind, hfunc⟩ := hfind
    rw [hfind, if_neg hhelp, if_pos hinfo]
    refine call_command _ ?_
    rw [hfunc]
    exact monKerninfo_settles syms a tf t
  · have hfind : (commands syms).find? (fun c => c.name = w) = none := by
      rw [List.find?_eq_none]
      intro c hc
      rcases List.mem_cons.mp hc with rfl | hc
      · simpa using Ne.symm hhelp
      · obtain rfl := List.mem_singleton.mp hc
        simpa using Ne.symm hinfo
    rw [hfind, if_neg hhelp, if_neg hinfo]
    obtain ⟨r, hprints⟩ := (emits_unknown hw hlen rest).prints t
    exact hprints.view fun r => (0, a.buf, r.2)

/-- `runcmd` answers any line, and asks for another one. -/
theorem runcmd_answers (syms : KernSyms) (hs : 0 ∉ s) (hlen : s.length < 2 ^ 31) (post : List Byte)
    (tf : BitVec 32) (t : Console) :
    ∃ buf, Settles (fun n => runcmd (commands syms) n (s ++ 0 :: post) tf t)
      (.ok (0, buf, emit cputchar (answer syms s) t)) := by
  unfold answer
  by_cases hmany : maxArgs ≤ (words isSpace s).length
  · rw [if_pos hmany]
    obtain ⟨k, a, -, hparse⟩ := parse_refuses hs post hmany
    obtain ⟨r, hprints⟩ := emits_tooMany.prints t
    exact ⟨a.buf, hparse.bind (hprints.view fun r => (0, a.buf, r.2))⟩
  rw [if_neg hmany]
  have hroom : (words isSpace s).length < maxArgs := by omega
  have hhanded := handed_ok post hroom
  have hrun := runcmd_hands (commands syms) hs post tf t hroom
  refine ⟨(handed s post).buf, hrun.settles ?_⟩
  cases hwords : words isSpace s with
  | nil =>
    have hargc : (handed s post).argc = 0 := by rw [hhanded.argc, hwords]; rfl
    exact (Settles.const _).congr (invoke_nothing hargc)
  | cons v ws =>
    obtain ⟨p, w⟩ := v
    obtain ⟨harg, rest, hstr⟩ := hhanded.argv 0 p w (by rw [hwords]; rfl)
    have hargc : (handed s post).argc ≠ 0 := by
      rw [hhanded.argc, hwords]
      exact Nat.succ_ne_zero _
    have hmem : (p, w) ∈ words isSpace s := hwords ▸ List.mem_cons_self
    obtain ⟨⟨u, v, rfl, -⟩, -⟩ := mem_words.mp hmem
    have hw : 0 ∉ w := fun h => hs (List.mem_append_left _ (List.mem_append_right _ h))
    have hshort : w.length < 2 ^ 31 := by
      simp only [List.length_append] at hlen
      omega
    exact (invoke_lookup hw hargc harg hstr).settles (call_answers hw hshort)

end Jos

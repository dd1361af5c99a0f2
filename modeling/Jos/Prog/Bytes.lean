import Jos.Prog.Loop
import Jos.Prog.Memory

/-! Byte arrays as C sees them: reads are checked, strings end in a NUL. -/
namespace Prog

/-- Read `p[i]`, which must lie inside the array. -/
def peek (p : List Byte) (i : Int) : Res Byte :=
  if 0 ≤ i then
    match p[i.toNat]? with
    | some b => .ok b
    | none => .error .fault
  else .error .fault

/-- Write `l[i]`, which must lie inside the array. -/
def poke {α : Type} (l : List α) (i : ℕ) (a : α) : Res (List α) :=
  if i < l.length then .ok (l.set i a) else .error .fault

/-- The array that holds the string `s` and its NUL. -/
def cstr (s : List Byte) : List Byte := s ++ [0]

/-- The bytes of a string literal. -/
def lit (s : String) : List Byte := s.toList.map fun c => BitVec.ofNat 8 c.toNat

variable {p s u : List Byte} {b : Byte} {i : Nat}

theorem peek_natCast : peek p i = match p[i]? with
    | some b => .ok b
    | none => .error .fault := by
  simp [peek]

theorem peek_of_getElem? (h : p[i]? = some b) : peek p i = .ok b := by
  rw [peek_natCast, h]

theorem peek_append (pre : List Byte) (b : Byte) (post : List Byte) :
    peek (pre ++ b :: post) pre.length = .ok b :=
  peek_of_getElem? (by simp)

theorem poke_append {α : Type} (pre : List α) (a b : α) (post : List α) :
    poke (pre ++ b :: post) pre.length a = .ok (pre ++ a :: post) := by
  have hlt : pre.length < (pre ++ b :: post).length := by
    rw [List.length_append, List.length_cons]
    omega
  have hset : (pre ++ b :: post).set pre.length a = pre ++ a :: post := by simp
  rw [poke, if_pos hlt, hset]

end Prog

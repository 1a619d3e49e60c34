import Pathwise.Expression

/-!
Programs: structured statements over integer and boolean variables. Every statement that does
something carries a label, by which a path names the places it visits.
-/

namespace Pathwise

abbrev Label := Nat

inductive Program
  | skip
  | assign (l : Label) (x : String) (e : Arith)
  | input (l : Label) (x : String)
  | print (l : Label) (e : Arith)
  | seq (a b : Program)
  | branch (l : Label) (c : Cond) (a b : Program)
  | loop (l : Label) (c : Cond) (body : Program)
  deriving DecidableEq, Repr

namespace Program

/-- The statements in order, closed by `skip`. -/
def block (ps : List Program) : Program :=
  ps.foldr seq skip

/-- Whether the program is made of `skip` alone, so that it leaves no place to visit. -/
def isSkip : Program → Bool
  | skip => true
  | seq a b => a.isSkip && b.isSkip
  | _ => false

/-- The label of the outermost statement; a block has none of its own. -/
def label? : Program → Option Label
  | assign l _ _ | input l _ | print l _ | branch l _ _ _ | loop l _ _ => some l
  | skip | seq _ _ => none

/-- The labels in the order in which the statements begin in the text. -/
def labels : Program → List Label
  | skip => []
  | assign l _ _ | input l _ | print l _ => [l]
  | seq a b => a.labels ++ b.labels
  | branch l _ a b => l :: (a.labels ++ b.labels)
  | loop l _ body => l :: body.labels

/-- What a statement is made of, in the order of the text. -/
def parts : Program → List Program
  | seq a b | branch _ _ a b => [a, b]
  | loop _ _ body => [body]
  | skip | assign _ _ _ | input _ _ | print _ _ => []

/-- The number of statements. -/
def size : Program → Nat
  | seq a b | branch _ _ a b => a.size + b.size + 1
  | loop _ _ body => body.size + 1
  | skip | assign _ _ _ | input _ _ | print _ _ => 1

/-- The number of statements of the programs on a stack. -/
def totalSize (stack : List Program) : Nat :=
  stack.foldr (fun p n => p.size + n) 0

theorem totalSize_append (ps stack : List Program) :
    totalSize (ps ++ stack) = totalSize ps + totalSize stack := by
  induction ps with
  | nil => exact (Nat.zero_add _).symm
  | cons p ps ih =>
    show p.size + totalSize (ps ++ stack) = p.size + totalSize ps + totalSize stack
    rw [ih, Nat.add_assoc]

theorem totalSize_parts_lt (p : Program) : totalSize p.parts < p.size := by
  cases p <;> simp [totalSize, parts, size]

/-- The labels of the statements that wait on a stack, found without recursion: the next statement is taken
off, its label comes first, and its parts take its place. -/
def labelsOn : List Program → List Label
  | [] => []
  | p :: stack => p.label?.toList ++ labelsOn (p.parts ++ stack)
termination_by stack => totalSize stack
decreasing_by
  rw [totalSize_append]
  exact Nat.add_lt_add_right p.totalSize_parts_lt _

theorem labels_eq_parts (p : Program) : p.labels = p.label?.toList ++ p.parts.flatMap labels := by
  cases p <;> simp [labels, label?, parts]

theorem labelsOn_eq_flatMap (stack : List Program) : labelsOn stack = stack.flatMap labels := by
  fun_induction labelsOn stack with
  | case1 => rfl
  | case2 p stack ih =>
    rw [ih, List.flatMap_append, List.flatMap_cons, labels_eq_parts, List.append_assoc]

/-- A stack that starts with one program meets its labels in the order of the text. -/
theorem labelsOn_singleton (p : Program) : labelsOn [p] = p.labels := by
  rw [labelsOn_eq_flatMap, List.flatMap_singleton]

end Program

end Pathwise

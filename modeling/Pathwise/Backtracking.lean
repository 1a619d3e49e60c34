/-!
Depth-first walks that keep one path for all frames.

A frame waits on a stack with its depth, which is the number of nodes on the path that leads to it. When
its turn comes, the path is cut off at this depth, and that takes back what was put there on the way to
other frames. A walk gives its results one at a time and can be taken up again after each of them.
-/

namespace Pathwise

variable {φ ν ρ : Type}

/-- What is done with a frame: it is passed over, and the path stays as it is, or a node is put on the path
and the frames behind it are to be visited. Either may come with a result. -/
inductive Visit (φ ν ρ : Type)
  | pass (result? : Option ρ)
  | enter (n : ν) (result? : Option ρ) (behind : List φ)

namespace Visit

def result? : Visit φ ν ρ → Option ρ
  | pass x => x
  | enter _ x _ => x

def behind : Visit φ ν ρ → List φ
  | pass _ => []
  | enter _ _ fs => fs

/-- The path after the visit, `p` being the path before. -/
def path (p : List ν) : Visit φ ν ρ → List ν
  | pass _ => p
  | enter n _ _ => p ++ [n]

end Visit

/-- A walk: what is done with a frame, given its depth and the path to it, and the stack and the path as
they stand. The next frame is the first of the stack. -/
structure Backtracker (φ ν ρ : Type) where
  visit : Nat → List ν → φ → Visit φ ν ρ
  stack : List (Nat × φ)
  path : List ν

namespace Backtracker

/-- Visit the next frame: the result, if there is one, and the walk from there on. -/
def step? (w : Backtracker φ ν ρ) : Option (Option ρ × Backtracker φ ν ρ) :=
  match w.stack with
  | [] => none
  | (depth, f) :: rest =>
    let path := w.path.take depth
    let v := w.visit depth path f
    some (v.result?, { w with
      stack := v.behind.map (depth + 1, ·) ++ rest
      path := v.path path })

/-- What it comes to when the walk is asked for its next result: it goes on to the next frame that gives
one, or there is none left. -/
inductive Next : Backtracker φ ν ρ → Option (ρ × Backtracker φ ν ρ) → Prop
  | finished {w : Backtracker φ ν ρ} : w.step? = none → Next w none
  | found {w w' : Backtracker φ ν ρ} {x : ρ} : w.step? = some (some x, w') → Next w (some (x, w'))
  | silent {w w' : Backtracker φ ν ρ} {r : Option (ρ × Backtracker φ ν ρ)} :
    w.step? = some (none, w') → Next w' r → Next w r

/-- Asked for one result after the other, the walk gives `xs` and then says that there are no more. -/
inductive Yields : Backtracker φ ν ρ → List ρ → Prop
  | done {w : Backtracker φ ν ρ} : w.Next none → Yields w []
  | more {w w' : Backtracker φ ν ρ} {x : ρ} {xs : List ρ} : w.Next (some (x, w')) → Yields w' xs →
    Yields w (x :: xs)

end Backtracker

end Pathwise

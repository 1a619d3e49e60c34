import Pathwise.Constraint.Problem
import Pathwise.Proofs.Constraint.Simplification

/-!
The symbols that terms, formulas and constraints mention.

Evaluation reads no other symbols (`eval_congr`), and the constructors that keep formulas small use no
other symbols and use none at another kind (`mem_symbolUses_join`, `symbolUses_negate`).
-/

namespace Pathwise

/-! ## Mentioned symbols -/

def Term.symbols : Term → List SymbolId
  | const _ => []
  | sym s => [s]

namespace Formula

mutual

def symbols : Formula → List SymbolId
  | const _ => []
  | sym s => [s]
  | not f => f.symbols
  | all fs => listSymbols fs
  | any fs => listSymbols fs
  | xor f g => f.symbols ++ g.symbols
  | cmp _ a b => a.symbols ++ b.symbols

def listSymbols : List Formula → List SymbolId
  | [] => []
  | f :: fs => f.symbols ++ listSymbols fs

end

end Formula

def Definition.symbols (d : Definition) : List SymbolId :=
  d.operands.flatMap Term.symbols

/-- The symbols of a constraint, the target of a definition among them. -/
def Constraint.symbols : Constraint → List SymbolId
  | define s d => s :: d.symbols
  | assert f => f.symbols

/-! ## The kinds at which symbols are used -/

/-- A symbol and a kind at which it is used. -/
abbrev SymbolUse := SymbolId × Kind

/-- Operands are integers. -/
def Term.symbolUses (t : Term) : List SymbolUse :=
  t.symbols.map (·, .int)

namespace Formula

mutual

/-- A symbol that stands as a formula is used as a boolean. -/
def symbolUses : Formula → List SymbolUse
  | const _ => []
  | sym s => [(s, .bool)]
  | not f => f.symbolUses
  | all fs => listSymbolUses fs
  | any fs => listSymbolUses fs
  | xor f g => f.symbolUses ++ g.symbolUses
  | cmp _ a b => a.symbolUses ++ b.symbolUses

def listSymbolUses : List Formula → List SymbolUse
  | [] => []
  | f :: fs => f.symbolUses ++ listSymbolUses fs

end

end Formula

def Definition.symbolUses (d : Definition) : List SymbolUse :=
  d.operands.flatMap Term.symbolUses

/-- The uses of symbols in a constraint; the target of a definition is used as an integer. -/
def Constraint.symbolUses : Constraint → List SymbolUse
  | define s d => (s, .int) :: d.symbolUses
  | assert f => f.symbolUses

/-! ## Values -/

theorem toOption_eq_some {ε α : Type} {r : Except ε α} {a : α} : r.toOption = some a ↔ r = .ok a := by
  cases r <;> simp [Except.toOption]

section
variable {m m' : Model}

theorem Model.int?_eq_some {s : SymbolId} {n : Int64} :
    m.int? s = some n ↔ m.get? s = some (.int n) := by
  unfold int?
  rcases m.get? s with _ | _ | _ <;> simp

theorem Model.bool?_eq_some {s : SymbolId} {b : Bool} :
    m.bool? s = some b ↔ m.get? s = some (.bool b) := by
  unfold bool?
  rcases m.get? s with _ | _ | _ <;> simp

theorem Definition.eval_unary {op : UnaryOp} {t : Term} {n : Int64} :
    (unary op t).eval m = some n ↔ ∃ x, t.eval m = some x ∧ op.apply x = .ok n := by
  cases ht : t.eval m with
  | none => simp [eval, ht]
  | some x => simp [eval, ht, toOption_eq_some]

theorem Definition.eval_binary {op : ArithOp} {a b : Term} {n : Int64} :
    (binary op a b).eval m = some n ↔
      ∃ x y, a.eval m = some x ∧ b.eval m = some y ∧ op.apply x y = .ok n := by
  cases ha : a.eval m with
  | none => simp [eval, ha]
  | some x =>
    cases hb : b.eval m with
    | none => simp [eval, ha, hb]
    | some y => simp [eval, ha, hb, toOption_eq_some]

theorem Formula.eval_cmp {op : CmpOp} {a b : Term} {v : Bool} :
    (cmp op a b).eval m = some v ↔
      ∃ x y, a.eval m = some x ∧ b.eval m = some y ∧ op.holds x y = v := by
  cases ha : a.eval m with
  | none => simp [eval, ha]
  | some x =>
    cases hb : b.eval m with
    | none => simp [eval, ha, hb]
    | some y => simp [eval, ha, hb]

/-! ## Evaluation reads the mentioned symbols -/

theorem Term.eval_congr {t : Term} (h : ∀ s ∈ t.symbols, m.get? s = m'.get? s) :
    t.eval m = t.eval m' := by
  cases t with
  | const n => rfl
  | sym s => simp only [eval, Model.int?, h s (by simp [symbols])]

theorem Definition.eval_congr {d : Definition} (h : ∀ s ∈ d.symbols, m.get? s = m'.get? s) :
    d.eval m = d.eval m' := by
  have ht : ∀ t ∈ d.operands, t.eval m = t.eval m' := fun t ht =>
    t.eval_congr fun s hs => h s (List.mem_flatMap.2 ⟨t, ht, hs⟩)
  cases d with
  | copy t => exact ht t (by simp [operands])
  | unary op t => simp only [eval, ht t (by simp [operands])]
  | binary op a b => simp only [eval, ht a (by simp [operands]), ht b (by simp [operands])]

namespace Formula

mutual

theorem eval_congr : ∀ {f : Formula}, (∀ s ∈ f.symbols, m.get? s = m'.get? s) → f.eval m = f.eval m'
  | const b, _ => rfl
  | sym s, h => by simp only [eval, Model.bool?, h s (by simp [symbols])]
  | not f, h => by
    have hf : f.eval m = f.eval m' := eval_congr h
    simp only [eval, hf]
  | all fs, h => by
    have hs := (evalList_congr h).1
    simpa only [eval] using hs
  | any fs, h => by
    have hs := (evalList_congr h).2
    simpa only [eval] using hs
  | xor f g, h => by
    simp only [symbols, List.mem_append] at h
    have hf : f.eval m = f.eval m' := eval_congr fun s hs => h s (Or.inl hs)
    have hg : g.eval m = g.eval m' := eval_congr fun s hs => h s (Or.inr hs)
    simp only [eval, hf, hg]
  | cmp op a b, h => by
    simp only [symbols, List.mem_append] at h
    have ha : a.eval m = a.eval m' := Term.eval_congr fun s hs => h s (Or.inl hs)
    have hb : b.eval m = b.eval m' := Term.eval_congr fun s hs => h s (Or.inr hs)
    simp only [eval, ha, hb]

theorem evalList_congr : ∀ {fs : List Formula}, (∀ s ∈ listSymbols fs, m.get? s = m'.get? s) →
    evalAll m fs = evalAll m' fs ∧ evalAny m fs = evalAny m' fs
  | [], _ => ⟨rfl, rfl⟩
  | f :: fs, h => by
    simp only [listSymbols, List.mem_append] at h
    have hf : f.eval m = f.eval m' := eval_congr fun s hs => h s (Or.inl hs)
    obtain ⟨hall, hany⟩ := evalList_congr fun s hs => h s (Or.inr hs)
    simp only [evalAll, evalAny, hf, hall, hany, and_self]

end

end Formula

end

/-! ## The used symbols are the mentioned ones -/

theorem Term.symbols_eq_map (t : Term) : t.symbols = t.symbolUses.map (·.1) := by
  simp [symbolUses, Function.comp_def]

theorem Definition.symbols_eq_map (d : Definition) : d.symbols = d.symbolUses.map (·.1) := by
  simp only [symbols, symbolUses, List.map_flatMap, ← Term.symbols_eq_map]

namespace Formula

mutual

theorem symbols_eq_map : ∀ f : Formula, f.symbols = f.symbolUses.map (·.1)
  | const _ | sym _ => rfl
  | not f => symbols_eq_map f
  | all fs | any fs => listSymbols_eq_map fs
  | xor f g => by simp only [symbols, symbolUses, List.map_append, symbols_eq_map f, symbols_eq_map g]
  | cmp _ a b => by simp only [symbols, symbolUses, List.map_append, Term.symbols_eq_map]

theorem listSymbols_eq_map : ∀ fs : List Formula, listSymbols fs = (listSymbolUses fs).map (·.1)
  | [] => rfl
  | f :: fs => by
    simp only [listSymbols, listSymbolUses, List.map_append, symbols_eq_map f, listSymbols_eq_map fs]

end

/-! ## The constructors bring no uses in -/

variable {u : SymbolUse} {f g : Formula} {fs : List Formula}

theorem mem_listSymbolUses : u ∈ listSymbolUses fs ↔ ∃ f ∈ fs, u ∈ f.symbolUses := by
  induction fs with
  | nil => simp [listSymbolUses]
  | cons f fs ih => simp [listSymbolUses, ih]

theorem symbolUses_negate (f : Formula) : f.negate.symbolUses = f.symbolUses := by
  cases f <;> simp [negate, symbolUses]

theorem symbolUses_junction (unit : Bool) (fs : List Formula) :
    (junction unit fs).symbolUses = listSymbolUses fs := by
  cases unit <;> simp only [junction, symbolUses]

theorem mem_symbolUses_of_mem_joinParts {unit : Bool} (hg : g ∈ joinParts unit f)
    (hu : u ∈ g.symbolUses) : u ∈ f.symbolUses := by
  obtain ⟨fs, rfl, hparts⟩ | ⟨rfl, hparts⟩ | ⟨-, hparts⟩ := joinParts_cases unit f
  · rw [symbolUses_junction, mem_listSymbolUses]
    exact ⟨g, hparts ▸ hg, hu⟩
  · simp [hparts] at hg
  · rw [hparts, List.mem_singleton] at hg
    rwa [← hg]

theorem mem_symbolUses_join (unit : Bool) (hu : u ∈ (join unit fs).symbolUses) :
    ∃ f ∈ fs, u ∈ f.symbolUses := by
  obtain ⟨g, hg, hug⟩ : ∃ g ∈ fs.flatMap (joinParts unit), u ∈ g.symbolUses := by
    obtain ⟨-, hjoin⟩ | ⟨f, hf, hjoin⟩ | ⟨-, hjoin⟩ := join_cases unit fs
    · simp [hjoin, symbolUses] at hu
    · exact ⟨f, by simp [hf], hjoin ▸ hu⟩
    · rwa [hjoin, symbolUses_junction, mem_listSymbolUses] at hu
  obtain ⟨f, hf, hgf⟩ := List.mem_flatMap.1 hg
  exact ⟨f, hf, mem_symbolUses_of_mem_joinParts hgf hug⟩

theorem mem_symbolUses_connect {op : LogicOp} (hu : u ∈ (connect op f g).symbolUses) :
    u ∈ f.symbolUses ∨ u ∈ g.symbolUses := by
  cases op with
  | and => simpa using mem_symbolUses_join true hu
  | or => simpa using mem_symbolUses_join false hu
  | xor => simpa [connect, symbolUses] using hu

end Formula

end Pathwise

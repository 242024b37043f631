import TieredCalculus.Newton.Iteration

/-! # Line search

Newton's method with a backtracking search along each step. Every batch entry has a step
length of its own, which is divided by the cutback until the entry's residual meets the
criterion of sufficient decrease or the trials run out.
-/

namespace TieredCalculus

variable {σ α : Type}

/-- The criterion of sufficient decrease, for a residual `r`, a direction `d`, a step length
`a` and a constant `c`. -/
inductive Criterion where
  /-- `‖r(u + a d)‖² ≤ ‖r‖² + 2 c a ⟨r, d⟩` -/
  | backtracking
  /-- `‖r(u + a d)‖² ≤ (1 - c a) ‖r‖²` -/
  | strongWolfe
  deriving DecidableEq

structure LineSearch (α : Type) where
  tolerances : Tolerances α
  linear : LinearSolver α
  criterion : Criterion
  /-- Trial steps per update; the last one is taken when none is sufficient. -/
  maxTrials : Nat
  cutback : α
  decrease : α

namespace LineSearch

def standard [OfScientific α] (linear : LinearSolver α) : LineSearch α where
  tolerances := .standard
  linear := linear
  criterion := .backtracking
  maxTrials := 10
  cutback := 2.0
  decrease := 1e-3

variable [Zero α] [One α] [Add α] [Sub α] [Neg α] [Mul α] [Div α] [LT α] [DecidableLT α] [LE α]
  [DecidableLE α] [Scalar α]

/-- The bound that the squared norm of a trial residual has to meet, from the squared norm at
the start and the slope `⟨r, d⟩`. -/
def bound (s : LineSearch α) (length squared slope : α) : α :=
  match s.criterion with
  | .backtracking => squared + (1 + 1) * s.decrease * length * slope
  | .strongWolfe => (1 - s.decrease * length) * squared

def accepts (s : LineSearch α) (length squared slope trial : α) : Bool :=
  trial ≤ s.bound length squared slope || trial ≤ s.tolerances.absolute * s.tolerances.absolute

/-- The start of a search: per batch entry the iterate, the direction, the squared norm of the
residual and the slope. -/
structure Start (α : Type) where
  batch : Shape
  width : Nat
  iterates : List (List α)
  directions : List (List α)
  squared : List α
  slopes : List α

def Start.trialValues (st : Start α) (lengths : List α) : List α :=
  (lengths.zip (st.iterates.zip st.directions)).flatMap fun (a, u, d) =>
    List.zipWith (fun x y => x + a * y) u d

def verdicts (s : LineSearch α) (st : Start α) (lengths : List α) (residual : Tensor α) :
    List Bool :=
  let rows := (chunks st.width residual.toList).take lengths.length
  (rows.zip (lengths.zip (st.squared.zip st.slopes))).map fun (row, a, squared, slope) =>
    s.accepts a squared slope (Linear.dot row row)

def cut (s : LineSearch α) (lengths : List α) (verdicts : List Bool) : List α :=
  (lengths.zipIdx).map fun (a, k) => if verdicts.getD k false then a else a / s.cutback

def trials (s : LineSearch α) (sys : NonlinearSystem σ α) (st : Start α) :
    (retries : Nat) → (lengths : List α) → Update (SolveError α) σ (Tensor α × List α)
  | retries, lengths => do
    let trial ← Tensor.ofValues st.batch [] [st.width] (st.trialValues lengths).toArray
    sys.setSolution trial
    let r ← (← sys.residual).expandBatch st.batch
    let verdicts := s.verdicts st lengths r
    if verdicts.all id then return (trial, lengths)
    else
      match retries with
      | 0 => return (trial, lengths)
      | retries + 1 => s.trials sys st retries (s.cut lengths verdicts)

/-- Searches along `d` from `u` with residual `r`. Returns the accepted iterate, at which the
system is left, and the step length of every batch entry. -/
def search (s : LineSearch α) (sys : NonlinearSystem σ α) (u r d : Tensor α) :
    Update (SolveError α) σ (Tensor α × List α) := do
  let batch ← Shape.broadcastAll [u.batch, r.batch, d.batch]
  let u ← u.expandBatch batch
  let d ← d.expandBatch batch
  let r ← r.expandBatch batch
  let width := u.baseNumel
  let residuals := chunks width r.toList
  let directions := chunks width d.toList
  let start : Start α :=
    { batch := batch
      width := width
      iterates := chunks width u.toList
      directions := directions
      squared := residuals.map fun r => Linear.dot r r
      slopes := List.zipWith Linear.dot residuals directions }
  let entries := if width = 0 then 0 else u.toList.length / width
  s.trials sys start (s.maxTrials - 1) (List.replicate entries 1)

def validate (s : LineSearch α) : Except (SolveError α) Unit := do
  s.tolerances.validate
  if s.maxTrials = 0 then throw (.invalidConfig .noTrials)
  if !(1 < s.cutback) then throw (.invalidConfig (.cutback s.cutback))

omit [Add α] [Sub α] [Neg α] [Mul α] [Div α] [Scalar α] in
theorem validate_eq_ok {s : LineSearch α} :
    s.validate = .ok () ↔ s.tolerances.validate = .ok () ∧ 0 < s.maxTrials ∧ 1 < s.cutback := by
  unfold validate
  cases s.tolerances.validate with
  | error e => simp [bind, Except.bind]
  | ok u =>
      by_cases hm : s.maxTrials = 0 <;> by_cases hc : 1 < s.cutback <;>
        simp [bind, Except.bind, hm, hc, Nat.pos_iff_ne_zero, throw, throwThe,
          MonadExceptOf.throw, pure, Except.pure]

def iteration (s : LineSearch α) : Iteration σ Unit α where
  tolerances := s.tolerances
  linear := s.linear
  validate := s.validate
  prepare := fun _ _ _ => .ok ()
  update := fun sys u r j => do
    let step ← s.linear.newtonStep r j
    let (u, _) ← (s.search sys u r step).onFirst
    return u

end LineSearch

end TieredCalculus

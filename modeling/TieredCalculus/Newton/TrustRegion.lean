import TieredCalculus.Newton.Iteration

/-! # Trust region

Newton's method kept within a trust region for the merit function `½‖r‖²`. An entry whose
Newton step leaves its region takes the constrained step of a subproblem instead, whose
unknown is the multiplier of the constraint. Radii adapt to the ratio of the actual to the
predicted reduction, and steps of too small a ratio are rejected, entry by entry.
-/

namespace TieredCalculus

variable {σ α : Type}

namespace Linear

def sumFin [Zero α] [Add α] {n : Nat} (f : Fin n → α) : α :=
  (List.finRange n).foldl (fun acc i => acc + f i) 0

end Linear

/-! ## Subproblem -/

/-- The quadratic model of one batch entry: `JᵀJ`, `Jᵀr`, the radius of the region, and
whether the Newton step lies inside. -/
structure QuadraticModel (α : Type) (n : Nat) where
  normal : Square α n
  gradient : Vector α n
  radius : α
  inside : Bool

namespace QuadraticModel

variable {n : Nat} [Zero α] [Neg α] [Add α] [Sub α] [Mul α] [Div α] [LT α] [DecidableLT α] [LE α]
  [DecidableLE α]

/-- The model of an entry with residual `r`, Jacobian `j` and Newton step `p`, where the
squared radius is twice `delta`. -/
def ofEntry [One α] [Scalar α] (r : Vector α n) (j : Square α n) (p : Vector α n) (delta : α) :
    QuadraticModel α n :=
  let radius := Scalar.sqrt ((1 + 1) * delta)
  { normal := .ofFn fun i k => Linear.sumFin fun l => j l i * j l k
    gradient := .ofFn fun i => Linear.sumFin fun l => j l i * r.get l
    radius := radius
    inside := Linear.norm p.toList ≤ radius }

def shifted (m : QuadraticModel α n) (s : α) : Square α n :=
  .ofFn fun i k => if i = k then m.normal i k + Scalar.positivePart s else m.normal i k

/-- The step `-(JᵀJ + max(s, 0) I)⁻¹ Jᵀr` with the factors of the matrix. -/
def step? (eps : α) (m : QuadraticModel α n) (s : α) : Option (Vector α n × Lu α n) :=
  (Lu.factor? eps (m.shifted s)).map fun lu => ((lu.solve m.gradient).map (-·), lu)

end QuadraticModel

/-- The constrained problems of all batch entries. The unknown of an entry is the multiplier
`s ≥ 0` of its constraint, and `1/‖p(s)‖ - 1/radius` vanishes where the step `p(s)` ends on
the boundary of the region. -/
structure Subproblem (α : Type) where
  batch : Shape
  width : Nat
  models : List (QuadraticModel α width)

namespace Subproblem

variable [Zero α] [One α] [Neg α] [Add α] [Sub α] [Mul α] [Div α] [LT α] [DecidableLT α] [LE α]
  [DecidableLE α] [Scalar α] [OfScientific α]

def create (batch : Shape) (r j p : Tensor α) (delta : List α) :
    Except (SolveError α) (Subproblem α) := do
  let r ← r.expandBatch batch
  let j ← j.expandBatch batch
  let p ← p.expandBatch batch
  if delta.length ≠ batch.numel then
    throw (.tensor (.invalidShape (.radiusCount batch.numel delta.length)))
  let n := r.baseNumel
  let models := delta.zipIdx.map fun (delta, b) =>
    .ofEntry (r.vectorRun n b) (j.squareRun n b) (p.vectorRun n b) delta
  return ⟨batch, n, models⟩

def inside (s : Subproblem α) : List Bool := s.models.map (·.inside)

def entryStep (s : Subproblem α) (model : QuadraticModel α s.width) (multiplier : α)
    (entry : Nat) : Except (SolveError α) (Vector α s.width × Lu α s.width) :=
  match model.step? Lu.threshold multiplier with
  | some step => .ok step
  | none => .error (.singularMatrix entry)

/-- The constrained steps for the given multipliers, zero for entries whose Newton step lies
inside. -/
def step (s : Subproblem α) (multipliers : Tensor α) : Except (SolveError α) (Tensor α) := do
  let multipliers ← multipliers.expandBatch s.batch
  let steps ← s.models.zipIdx.mapM fun (model, b) =>
    if model.inside then return .replicate s.width 0
    else return (← s.entryStep model (multipliers.data[b]?.getD 0) b).1
  Tensor.ofValues s.batch [] [s.width] (steps.foldl (fun acc p => acc ++ p.toArray) #[])

/-- Residual and derivative of one entry's equation; zero and one for entries whose Newton
step lies inside. -/
def equation (s : Subproblem α) (model : QuadraticModel α s.width) (multiplier : α)
    (entry : Nat) : Except (SolveError α) (α × α) :=
  if model.inside then return (0, 1)
  else do
    let (p, lu) ← s.entryStep model multiplier entry
    let length := Linear.norm p.toList
    let q := lu.solve p
    return (1 / length - 1 / model.radius,
      Linear.dot p.toList q.toList / (length * length * length))

def evaluate (s : Subproblem α) (multipliers : Option (Tensor α)) :
    Except (SolveError α) (Tensor α × Tensor α) := do
  let values ← match multipliers with
    | some t => (·.data) <$> t.expandBatch s.batch
    | none => pure #[]
  let equations ← s.models.zipIdx.mapM fun (model, b) =>
    s.equation model (values[b]?.getD 0) b
  let residual ← Tensor.ofValues s.batch [] [1] (equations.map (·.1)).toArray
  let jacobian ← Tensor.ofValues s.batch [] [1, 1] (equations.map (·.2)).toArray
  return (residual, jacobian)

def axis : Axis := AxisPlan.freeze ⟨[("multiplier", [], [])], []⟩

def system (s : Subproblem α) : NonlinearSystem (Option (Tensor α)) α where
  unknownAxis := axis
  residualAxis := axis
  setSolution := fun t => set (some t)
  solution := id
  residual := do return (← s.evaluate (← get)).1
  jacobian := do return (← s.evaluate (← get)).2
  residualAndJacobian := do s.evaluate (← get)

end Subproblem

/-! ## Solver -/

structure TrustRegion (α : Type) where
  tolerances : Tolerances α
  linear : LinearSolver α
  initialRadius : α
  maxRadius : α
  reduceBelow : α
  expandAbove : α
  reduceFactor : α
  expandFactor : α
  acceptFrom : α
  subproblem : Tolerances α

namespace TrustRegion

def standard [One α] [OfScientific α] (linear : LinearSolver α) : TrustRegion α where
  tolerances := .standard
  linear := linear
  initialRadius := 1
  maxRadius := 10.0
  reduceBelow := 0.25
  expandAbove := 0.75
  reduceFactor := 0.25
  expandFactor := 2.0
  acceptFrom := 0.1
  subproblem := ⟨1e-8, 1e-6, 10⟩

variable [Zero α] [One α] [Neg α] [Add α] [Sub α] [Mul α] [Div α] [LT α] [DecidableLT α] [LE α]
  [DecidableLE α] [Scalar α] [OfScientific α]

def validate (s : TrustRegion α) : Except (SolveError α) Unit := do
  s.tolerances.validate
  s.subproblem.validate
  if !(0 < s.initialRadius) || !(s.initialRadius ≤ s.maxRadius) then
    throw (.invalidConfig (.radii s.initialRadius s.maxRadius))
  if !(0 < s.reduceFactor && s.reduceFactor < 1) || !(1 < s.expandFactor) then
    throw (.invalidConfig .factors)

omit [Neg α] [Add α] [Sub α] [Mul α] [Div α] [Scalar α] [OfScientific α] in
theorem validate_eq_ok {s : TrustRegion α} :
    s.validate = .ok () ↔ s.tolerances.validate = .ok () ∧ s.subproblem.validate = .ok () ∧
      (0 < s.initialRadius ∧ s.initialRadius ≤ s.maxRadius) ∧
      (0 < s.reduceFactor ∧ s.reduceFactor < 1) ∧ 1 < s.expandFactor := by
  unfold validate
  cases s.tolerances.validate with
  | error e => simp [bind, Except.bind]
  | ok _ =>
  cases s.subproblem.validate with
  | error e => simp [bind, Except.bind]
  | ok _ =>
  by_cases hr : 0 < s.initialRadius ∧ s.initialRadius ≤ s.maxRadius
  · by_cases hf : (0 < s.reduceFactor ∧ s.reduceFactor < 1) ∧ 1 < s.expandFactor
    · simp [hr, hf, bind, Except.bind, pure, Except.pure]
    · simp [hr, hf, bind, Except.bind, pure, Except.pure]
  · have hr' := Decidable.not_and_iff_not_or_not.1 hr
    simp [hr, hr', bind, Except.bind, throw, throwThe, MonadExceptOf.throw]

/-- The step of every entry: the Newton step where it lies inside the region, elsewhere the
constrained step for the multiplier that Newton's method finds. -/
def direction (s : TrustRegion α) (batch : Shape) (r j : Tensor α) (delta : List α) :
    Except (SolveError α) (Tensor α) := do
  let newton ← (← s.linear.newtonStep r j).expandBatch batch
  let sub ← Subproblem.create batch r j newton delta
  if sub.inside.all id then
    return newton
  let inner : Newton α := ⟨s.subproblem, .dense⟩
  let solved ← ((inner.iteration).solve sub.system (Tensor.zeros batch [] [1])).outcome none |>.1
  let constrained ← sub.step solved.value
  let n := newton.baseNumel
  let rows := sub.inside.zipIdx.map fun (inside, b) =>
    ((if inside then newton else constrained).vectorRun n b).toArray
  Tensor.ofValues batch [] [n] (rows.foldl (· ++ ·) #[])

/-- The reduction of the merit function over a step: actual over predicted. A prediction below
the spacing of the numbers counts as one where the merit does not grow, and as zero
otherwise. -/
def ratio (predicted actual : α) : α :=
  if Scalar.abs predicted < Scalar.epsilon then if 0 ≤ actual then 1 else 0
  else actual / predicted

def half : α := 1 / (1 + 1)

def modelChange {n : Nat} (j : Square α n) (p : Vector α n) : List α :=
  (List.finRange n).map fun l => Linear.dot (j.rows.get l).toList p.toList

def predicted {n : Nat} (r : Vector α n) (j : Square α n) (p : Vector α n) : α :=
  -Linear.dot r.toList (modelChange j p) -
    half * Linear.dot (modelChange j p) (modelChange j p)

def actual {n : Nat} (r r' : Vector α n) : α :=
  half * Linear.dot r.toList r.toList - half * Linear.dot r'.toList r'.toList

def nextRadius [BEq α] (s : TrustRegion α) (ratio delta : α) : α :=
  if ratio < s.reduceBelow then s.reduceFactor * delta
  else if s.expandAbove < ratio then Scalar.least (s.expandFactor * delta) s.maxRadius
  else delta

/-- One update. The state beside the system's is the list of radii; a single radius is first
repeated for every batch entry, also when the update fails later. -/
def update [BEq α] (s : TrustRegion α) (sys : NonlinearSystem σ α) (u r j : Tensor α) :
    Update (SolveError α) (σ × List α) (Tensor α) := do
  let batch ← Shape.broadcastAll [u.batch, r.batch, j.batch]
  let entries := batch.numel
  modify fun (st, delta) =>
    match delta with
    | [d] => (st, List.replicate entries d)
    | _ => (st, delta)
  let delta := (← get).2
  let p ← s.direction batch r j delta
  let u₀ ← u.expandBatch batch
  let r₀ ← r.expandBatch batch
  let j₀ ← j.expandBatch batch
  let moved ← (← u.add p).expandBatch batch
  (sys.setSolution moved).onFirst
  let r₁ ← (← sys.residual.onFirst).expandBatch batch
  let n := u₀.baseNumel
  let ratios := (List.range entries).map fun b =>
    let r := r₀.vectorRun n b
    ratio (predicted r (j₀.squareRun n b) (p.vectorRun n b)) (actual r (r₁.vectorRun n b))
  modify fun (st, delta) => (st, List.zipWith (fun rho d => s.nextRadius rho d) ratios delta)
  let values := u₀.data.mapIdx fun k x =>
    match ratios[k / n]? with
    | some rho => if s.acceptFrom ≤ rho then moved.data[k]?.getD x else x
    | none => x
  Tensor.ofValues batch [] [n] values

def iteration [BEq α] (s : TrustRegion α) : Iteration σ (List α) α where
  tolerances := s.tolerances
  linear := s.linear
  validate := s.validate
  prepare := fun _ _ u => .ok (List.replicate u.batch.numel s.initialRadius)
  update := s.update

end TrustRegion

end TieredCalculus
